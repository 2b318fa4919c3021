import TpiePipelining.Node

/-!
# Correctness of the shared datastructures

The datastructures of a pipeline live in the node map, so every node registered in the map
reads and writes the same table through `set_datastructure` and `get_datastructure`. A run is
a list of calls, each made by some node; a call that throws leaves the heap as it was.

Neither call adds, removes or re-registers a name (`Frame`, `frame_run`). A `set` stores its
value in place (`lookup_replace`), so after any run a registered name holds the value of the
most recent `set` on it, whichever node made it (`lookup_run`, `storedAfter`), and a `get`
returns that value when it has the requested type (`getDatastructure_run`). However the calls
of nodes of different maps interleave, each map goes through the calls of its own nodes
(`runCalls_apply`). `datastructure_registry` puts this together.
-/

namespace Tpie.Pipelining

variable {Ty V Info : Type}

/-! ### Replacing a value in place -/

theorem dlookup_kreplace {X : Type} (l : List (Σ _ : String, X)) (a k : String) (x : X) :
    (l.kreplace a x).dlookup k = if k = a then (l.dlookup k).map (fun _ => x) else l.dlookup k := by
  induction l with
  | nil => split <;> rfl
  | cons e l ih =>
    obtain ⟨a', x'⟩ := e
    unfold List.kreplace at ih ⊢
    by_cases ha : a = a'
    · subst ha
      rw [List.lookmap_cons_some _ _ (b := ⟨a, x⟩) (by simp)]
      by_cases hk : k = a
      · subst hk; simp [List.dlookup_cons_eq]
      · rw [if_neg hk, List.dlookup_cons_ne l ⟨a, x⟩ hk, List.dlookup_cons_ne l ⟨a, x'⟩ hk]
    · rw [List.lookmap_cons_none _ _ (by simp [ha])]
      by_cases hk : k = a'
      · subst hk; simp [List.dlookup_cons_eq, Ne.symm ha]
      · rw [List.dlookup_cons_ne _ _ hk, List.dlookup_cons_ne _ _ hk, ih]

namespace DatastructureMap

theorem lookup_replace (t : DatastructureMap Info V) (name k : String) (e : Info × Any V) :
    (t.replace name e).lookup k = if k = name then (t.lookup k).map (fun _ => e) else t.lookup k :=
  dlookup_kreplace t.entries name k e

end DatastructureMap

/-! ### Calls and runs -/

/-- A call a node makes on the datastructures of its node map. -/
inductive Call (Ty V : Type) where
  /-- `set_datastructure(name, datastructure)`. -/
  | set (name : String) (datastructure : V)
  /-- `get_datastructure<T>(name)`. -/
  | get (T : Ty) (name : String)

/-- The value a call stores under `name`: that of a `set` on `name`. -/
def Call.stored (name : String) : Call Ty V → Option V
  | .set name' v => if name' = name then some v else none
  | .get _ _ => none

/-- What `name` holds after `calls`: the value of the most recent `set` on it, or `a`, what
it held before, when there is none. -/
def storedAfter (a : Any V) (name : String) (calls : List (Call Ty V)) : Any V :=
  match (calls.filterMap (Call.stored name)).getLast? with
  | some v => .holder v
  | none => a

theorem storedAfter_append_singleton (a : Any V) (name : String) (calls : List (Call Ty V))
    (c : Call Ty V) :
    storedAfter a name (calls ++ [c]) = (c.stored name).elim (storedAfter a name calls) .holder := by
  unfold storedAfter
  cases h : c.stored name <;> simp [List.filterMap_append, h]

namespace DatastructureMap

/-- The table after a call; a call that throws leaves it as it was. -/
def call (t : DatastructureMap Info V) : Call Ty V → DatastructureMap Info V
  | .set name v => match t.setDatastructure name v with
    | .ok t' => t'
    | .error _ => t
  | .get _ _ => t

/-- The table after a run of calls. -/
def run (t : DatastructureMap Info V) (calls : List (Call Ty V)) : DatastructureMap Info V :=
  calls.foldl call t

theorem run_append_singleton (t : DatastructureMap Info V) (calls : List (Call Ty V))
    (c : Call Ty V) : t.run (calls ++ [c]) = (t.run calls).call c :=
  List.foldl_append _ _ _ _

theorem setDatastructure_of_not_mem {t : DatastructureMap Info V} {name : String} (v : V)
    (h : name ∉ t) :
    t.setDatastructure name v = .error (.exception "attempted to set non-registered datastructure") := by
  simp [setDatastructure, AList.lookup_eq_none.mpr h]

section
variable [Rtti Ty V] [DecidableEq Ty]

theorem getDatastructure_of_not_mem {t : DatastructureMap Info V} {name : String} (T : Ty)
    (h : name ∉ t) :
    t.getDatastructure T name = .error (.exception "attempted to get non-registered datastructure") := by
  simp [getDatastructure, AList.lookup_eq_none.mpr h]

theorem getDatastructure_of_lookup {t : DatastructureMap Info V} {name : String} {info : Info}
    {a : Any V} (T : Ty) (h : t.lookup name = some (info, a)) :
    t.getDatastructure T name = anyCast T a := by
  simp [getDatastructure, h]

end

/-! ### Names and infos never change -/

/-- `t'` registers the names of `t`, each with its info in `t`: only stored values differ. -/
structure Frame (t t' : DatastructureMap Info V) : Prop where
  keys : t'.keys = t.keys
  info : ∀ name, (t'.lookup name).map Prod.fst = (t.lookup name).map Prod.fst

theorem Frame.refl (t : DatastructureMap Info V) : Frame t t := ⟨rfl, fun _ => rfl⟩

theorem Frame.trans {t t' t'' : DatastructureMap Info V} (h : Frame t t') (h' : Frame t' t'') :
    Frame t t'' :=
  ⟨h'.keys.trans h.keys, fun name => (h'.info name).trans (h.info name)⟩

theorem Frame.mem_iff {t t' : DatastructureMap Info V} (h : Frame t t') (name : String) :
    name ∈ t' ↔ name ∈ t := by
  rw [AList.mem_keys, AList.mem_keys, h.keys]

/-- One call on the table: a registered name keeps its info and takes the value a `set` on it
stores; an unregistered name stays unregistered. -/
theorem lookup_call (t : DatastructureMap Info V) (c : Call Ty V) (k : String) :
    (t.call c).lookup k = (t.lookup k).map (fun e => (e.1, (c.stored k).elim e.2 .holder)) := by
  cases c with
  | get T name => show t.lookup k = _; cases t.lookup k <;> rfl
  | set name v =>
    by_cases e : name = k
    · -- the name the call sets
      subst e
      rcases h : t.lookup name with _ | ⟨info, a⟩ <;>
        simp [call, setDatastructure, h, lookup_replace, Call.stored]
    · -- any other name
      rcases h : t.lookup name with _ | ⟨info, a⟩ <;>
        simp [call, setDatastructure, h, lookup_replace, Call.stored, e, Ne.symm e]

theorem keys_call (t : DatastructureMap Info V) (c : Call Ty V) : (t.call c).keys = t.keys := by
  cases c with
  | get T name => rfl
  | set name v =>
    rcases h : t.lookup name with _ | ⟨info, a⟩ <;> simp [call, setDatastructure, h]

theorem frame_call (t : DatastructureMap Info V) (c : Call Ty V) : Frame t (t.call c) :=
  ⟨keys_call t c, fun k => by rw [lookup_call, Option.map_map]; rfl⟩

theorem frame_run (t : DatastructureMap Info V) (calls : List (Call Ty V)) :
    Frame t (t.run calls) := by
  induction calls using List.reverseRecOn with
  | nil => exact Frame.refl t
  | append_singleton calls c ih =>
    rw [run_append_singleton]
    exact ih.trans (frame_call _ c)

/-! ### The most recent `set` wins -/

/-- **After any run, a registered name holds the value of the most recent `set` on it.** -/
theorem lookup_run (t : DatastructureMap Info V) (calls : List (Call Ty V)) (k : String) :
    (t.run calls).lookup k = (t.lookup k).map (fun e => (e.1, storedAfter e.2 k calls)) := by
  induction calls using List.reverseRecOn with
  | nil => show t.lookup k = _; cases t.lookup k <;> rfl
  | append_singleton calls c ih =>
    rw [run_append_singleton, lookup_call, ih, Option.map_map]
    cases t.lookup k <;> simp [storedAfter_append_singleton]

theorem getDatastructure_run [Rtti Ty V] [DecidableEq Ty] (t : DatastructureMap Info V) (calls : List (Call Ty V)) (T : Ty)
    {name : String} {info : Info} {a : Any V} (h : t.lookup name = some (info, a)) :
    (t.run calls).getDatastructure T name = anyCast T (storedAfter a name calls) :=
  getDatastructure_of_lookup T (by rw [lookup_run, h]; rfl)

end DatastructureMap

/-! ### Nodes sharing a node map -/

namespace Node

/-- The heap after node `n` makes call `c`; a call that throws leaves it as it was. -/
def call (heap : Heap Info V) (n : Node V) : Call Ty V → Heap Info V
  | .set name v => match n.setDatastructure heap name v with
    | .ok heap' => heap'
    | .error _ => heap
  | .get _ _ => heap

/-- The heap after a run of calls, each made by the node it is paired with. -/
def runCalls (heap : Heap Info V) (calls : List (Node V × Call Ty V)) : Heap Info V :=
  calls.foldl (fun h c => call h c.1 c.2) heap

/-- A call by `n` is the call on the table of `n`'s node map. -/
theorem call_eq_update (heap : Heap Info V) (n : Node V) (c : Call Ty V) :
    call heap n c =
      Function.update heap n.getNodeMap ⟨(heap n.getNodeMap).datastructures.call c⟩ := by
  cases c with
  | get T name => exact (Function.update_eq_self _ _).symm
  | set name v =>
    simp only [call, setDatastructure, DatastructureMap.call]
    cases (heap n.getNodeMap).datastructures.setDatastructure name v
    · exact (Function.update_eq_self _ _).symm
    · rfl

theorem runCalls_append_singleton (heap : Heap Info V) (calls : List (Node V × Call Ty V))
    (c : Node V × Call Ty V) : runCalls heap (calls ++ [c]) = call (runCalls heap calls) c.1 c.2 :=
  List.foldl_append _ _ _ _

/-- **Each node map sees exactly the calls of its own nodes.** However the calls of nodes of
different maps interleave, the table of the map at `q` goes through the run of the calls made
by nodes of that map, in their order. -/
theorem runCalls_apply (heap : Heap Info V) (calls : List (Node V × Call Ty V)) (q : Nat) :
    (runCalls heap calls q).datastructures =
      (heap q).datastructures.run ((calls.filter (·.1.getNodeMap = q)).map Prod.snd) := by
  induction calls using List.reverseRecOn with
  | nil => rfl
  | append_singleton calls c ih =>
    rw [runCalls_append_singleton, call_eq_update, List.filter_append]
    by_cases hq : c.1.getNodeMap = q
    · subst hq
      rw [Function.update_same, ih]
      simp [DatastructureMap.run_append_singleton]
    · rw [Function.update_noteq (Ne.symm hq), ih]
      simp [hq]

/-- Under a run by nodes of the map at `p`, the map's table is the run of the calls on it. -/
theorem runCalls_datastructures (heap : Heap Info V) {p : Nat}
    {calls : List (Node V × Call Ty V)} (hcalls : ∀ c ∈ calls, c.1.getNodeMap = p) :
    (runCalls heap calls p).datastructures = (heap p).datastructures.run (calls.map Prod.snd) := by
  rw [runCalls_apply, List.filter_eq_self.mpr fun c h => decide_eq_true (hcalls c h)]

variable [Rtti Ty V] [DecidableEq Ty]

/-- **The shared datastructure registry.** Take any heap, the node map at `p`, and any run of
`set_datastructure` and `get_datastructure` calls, in any order, by nodes registered in that
map, then one more call by such a node `n`. (i) The run keeps the map's registered names and
their infos. (ii) A `set` on an unregistered name throws and leaves the heap as it was.
(iii) A `get` on an unregistered name throws; on a registered name, which held `a` before the
run, it returns `v` exactly when the most recent `set` on it stored `v`, of the requested
type, and throws `bad_any_cast` otherwise. (iv) A `get` leaves the heap as it was. -/
theorem datastructure_registry (heap : Heap Info V) (p : Nat)
    (calls : List (Node V × Call Ty V)) (hcalls : ∀ c ∈ calls, c.1.getNodeMap = p)
    (n : Node V) (hn : n.getNodeMap = p) :
    DatastructureMap.Frame (heap p).datastructures (runCalls heap calls p).datastructures ∧
    (∀ name v, name ∉ (heap p).datastructures →
      n.setDatastructure (runCalls heap calls) name v =
        .error (.exception "attempted to set non-registered datastructure") ∧
      call (runCalls heap calls) n (.set name v : Call Ty V) = runCalls heap calls) ∧
    (∀ T name, name ∉ (heap p).datastructures →
      n.getDatastructure (runCalls heap calls) T name =
        .error (.exception "attempted to get non-registered datastructure")) ∧
    (∀ T name info a, (heap p).datastructures.lookup name = some (info, a) →
      (∀ v, n.getDatastructure (runCalls heap calls) T name = .ok v ↔
        storedAfter a name (calls.map Prod.snd) = .holder v ∧ Rtti.typeid v = T) ∧
      ((∀ v, ¬ (storedAfter a name (calls.map Prod.snd) = .holder v ∧ Rtti.typeid v = T)) →
        n.getDatastructure (runCalls heap calls) T name = .error .badAnyCast)) ∧
    (∀ (T : Ty) name, call (runCalls heap calls) n (.get T name) = runCalls heap calls) := by
  have hds := runCalls_datastructures heap hcalls
  have hframe : DatastructureMap.Frame (heap p).datastructures (runCalls heap calls p).datastructures :=
    hds ▸ DatastructureMap.frame_run _ _
  refine ⟨hframe, fun name v h => ?_, fun T name h => ?_, fun T name info a h => ?_, fun _ _ => rfl⟩
  · have hset := DatastructureMap.setDatastructure_of_not_mem v ((hframe.mem_iff name).not.mpr h)
    simp only [setDatastructure, call, hn, hset]
    exact ⟨rfl, rfl⟩
  · rw [getDatastructure, hn]
    exact DatastructureMap.getDatastructure_of_not_mem T ((hframe.mem_iff name).not.mpr h)
  · have hget : n.getDatastructure (runCalls heap calls) T name =
        anyCast T (storedAfter a name (calls.map Prod.snd)) := by
      rw [getDatastructure, hn, hds, DatastructureMap.getDatastructure_run _ _ T h]
    rw [hget]
    exact ⟨fun _ => anyCast_eq_ok_iff, fun hno =>
      (anyCast_ok_or_bad _ _).resolve_left fun ⟨v, hv⟩ => hno v (anyCast_eq_ok_iff.mp hv)⟩

/-- Two nodes of the map at address `0` share a buffer: what one sets, the other gets. -/
theorem datastructure_registry_shared_buffer :
    let heap : Heap Unit Nat := fun _ => ⟨[⟨"buffer", ((), .empty)⟩].toAList⟩
    let writer : Node Nat := ⟨⟨1, 0⟩, ⟨"writer", 0⟩, ∅, 0, ⟨[]⟩, .inEnd, []⟩
    let reader : Node Nat := ⟨⟨2, 0⟩, ⟨"reader", 0⟩, ∅, 0, ⟨[]⟩, .inBegin, []⟩
    let calls : List (Node Nat × Call TypeInfo Nat) := [(writer, .set "buffer" 7)]
    (∀ c ∈ calls, c.1.getNodeMap = 0) ∧ reader.getNodeMap = 0 ∧
      reader.getDatastructure (runCalls heap calls) .sizeT "buffer" = .ok 7 := by
  intro heap _ reader calls
  exact ⟨by decide, rfl,
    ((datastructure_registry heap 0 calls (by decide) reader rfl).2.2.2.1 .sizeT "buffer" () .empty
      rfl).1 7 |>.mpr ⟨rfl, rfl⟩⟩

end Node

end Tpie.Pipelining
