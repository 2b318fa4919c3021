import TpiePipelining.Basic
import Mathlib.Data.String.Basic

/-!
# The pipelining node

`tpie::pipelining::node` from `node.h`, with the members the modelled functions read or
write, and those member functions: `set_state`, `get_node_map`, `can_fetch`, `fetch`, `step`,
`set_datastructure`, `get_datastructure` and `set_breadcrumb`.

`set_steps`, `step_overflow` and `add_forwarded_data` are declared in `node.h` but defined in
`node.cpp`, which is not part of the source; they follow the spec (sections 4.2, 4.6 and 4.7)
and say so. So does `node_token::get_map`, from `tokens.h`.

A node map is shared: every node registered in it reaches it through its token, and the
datastructure members act on the map's table, not on the node. The node maps of a pipeline
are a `Heap`, indexed by address.
-/

namespace Tpie.Pipelining

/-- `node::STATE`: where a node is in its lifecycle, used to check the order of calls. -/
inductive State where
  | fresh
  | inPrepare
  | afterPrepare
  | inPropagate
  | afterPropagate
  | inBegin
  | afterBegin
  | inEnd
  | afterEnd
  deriving DecidableEq, Repr

/-- `node_token`: the node's id and the address of the `node_map` it is registered in. -/
structure NodeToken where
  id : Nat
  map : Nat
  deriving DecidableEq, Repr

/-- Modelled from the spec: `node_token::get_map` is in `tokens.h`, which is not part of the
source. Section 3: a token carries `(id, map_ref)`, and its map is the one it refers to. -/
def NodeToken.getMap (t : NodeToken) : Nat := t.map

/-- `node_parameters`, the members the modelled functions use. -/
structure NodeParameters where
  name : String
  stepsTotal : UInt64
  deriving DecidableEq, Repr

/-- The progress indicator `m_pi` points to, seen through the calls a node makes on it: the
arguments of its `step` calls, oldest first. -/
structure ProgressIndicator where
  steps : List UInt64
  deriving DecidableEq, Repr

/-- `progress_indicator_base::step(steps)`, as the node sees it. -/
def ProgressIndicator.step (pi : ProgressIndicator) (steps : UInt64) : ProgressIndicator :=
  ⟨pi.steps ++ [steps]⟩

/-- Modelled from the spec: the diagnostic `step_overflow` records (section 4.7: name,
requested, remaining). `step_overflow` takes no argument, so it records what the node holds:
its name, the steps it declared and the steps it has left. -/
structure StepOverflow where
  name : String
  stepsTotal : UInt64
  stepsLeft : UInt64
  deriving DecidableEq, Repr

/-- `node::valuemap`: forwarded metadata by key, each value with whether it was forwarded
explicitly. -/
abbrev ValueMap (V : Type) := AList fun _ : String => Any V × Bool

/-- `bits::node_map::datastructuremap_t`: the datastructures the nodes of one map share, by
name, each with its registration info (`Info`, a type `node.h` does not show) and its value. -/
abbrev DatastructureMap (Info V : Type) := AList fun _ : String => Info × Any V

/-- `bits::node_map`, as far as `node.h` uses it: its datastructure table. -/
structure NodeMap (Info V : Type) where
  datastructures : DatastructureMap Info V

/-- The node maps of a pipeline, by address. -/
abbrev Heap (Info V : Type) := Nat → NodeMap Info V

/-- `tpie::pipelining::node`, with the members the modelled functions use. `log` holds the
diagnostics `step_overflow` recorded for this node. -/
structure Node (V : Type) where
  token : NodeToken
  parameters : NodeParameters
  values : ValueMap V
  stepsLeft : UInt64
  pi : ProgressIndicator
  state : State
  log : List StepOverflow

variable {Ty V Info : Type} [Rtti Ty V] [DecidableEq Ty]

/-! ### `std::map` -/

namespace ValueMap

/-- `std::map::count`: `1` when `key` has an entry, `0` otherwise. -/
def count (m : ValueMap V) (key : String) : Nat := if key ∈ m then 1 else 0

/-- `std::map::operator[]`: the entry of `key`, after inserting the value-initialised entry
`(boost::any(), false)` when there is none. Returns the entry and the map. -/
def index (m : ValueMap V) (key : String) : (Any V × Bool) × ValueMap V :=
  match m.lookup key with
  | some e => (e, m)
  | none => ((.empty, false), m.insert key (.empty, false))

/-- `operator[]` on a key that has an entry returns it and changes nothing. -/
theorem index_of_lookup {m : ValueMap V} {key : String} {e : Any V × Bool}
    (h : m.lookup key = some e) : m.index key = (e, m) := by
  simp [index, h]

end ValueMap

/-! ### The node map's datastructure table -/

namespace DatastructureMap

/-- The body of `node::set_datastructure` on the node map's table: store `datastructure` under
a registered `name`, keeping its info, and throw on a name that is not registered. -/
def setDatastructure (structures : DatastructureMap Info V) (name : String) (datastructure : V) :
    Except Exception (DatastructureMap Info V) :=
  match structures.lookup name with
  | none => .error (.exception "attempted to set non-registered datastructure")
  | some (info, _) => .ok (structures.replace name (info, .holder datastructure))

/-- The body of `node::get_datastructure<T>` on the node map's table: the value stored under a
registered `name`, through `any_cast<T>`, whose `bad_any_cast` is not caught. -/
def getDatastructure (structures : DatastructureMap Info V) (T : Ty) (name : String) :
    Except Exception V :=
  match structures.lookup name with
  | none => .error (.exception "attempted to get non-registered datastructure")
  | some (_, a) => anyCast T a

end DatastructureMap

namespace Node

/-- `node::set_state(s)`, called by the pipeline as it drives the node through its phases. -/
def setState (n : Node V) (s : State) : Node V := { n with state := s }

/-! ### Node maps and forwarded metadata -/

/-- `node::get_node_map()`: the node map the node's token refers to. -/
def getNodeMap (n : Node V) : Nat := n.token.getMap

/-- `node::can_fetch(key)`. -/
def canFetch (n : Node V) (key : String) : Bool := n.values.count key != 0

@[simp] theorem canFetch_iff {n : Node V} {key : String} : n.canFetch key = true ↔ key ∈ n.values := by
  simp [canFetch, ValueMap.count]

/-- `node::fetch<T>(key)`: the value forwarded under `key`, which must be a `T`. Both failures
throw `invalid_argument_exception`; after the `count` check the entry is read with
`operator[]`, twice on the failure path. Returns the result and the node after the call. -/
def fetch [TypeName Ty] (n : Node V) (T : Ty) (key : String) : Except Exception V × Node V :=
  if n.values.count key = 0 then
    (.error (.invalidArgumentException
      ("Tried to fetch nonexistent key '" ++ key ++ "' of type " ++ TypeName.name T)), n)
  else
    let (e, values) := n.values.index key
    match anyCast T e.1 with
    | .ok v => (.ok v, { n with values := values })
    | .error _ =>
      let (e', values') := values.index key
      (.error (.invalidArgumentException
        ("Trying to fetch key '" ++ key ++ "' of type " ++ TypeName.name T ++
          " but forwarded data was of type " ++ TypeName.name e'.1.type ++
          ". Message was: " ++ badAnyCastWhat)), { n with values := values' })

/-- Modelled from the spec: `node::add_forwarded_data` is in `node.cpp`. Its documentation in
`node.h` and section 4.6: data forwarded with `explicitForward == false` does not override
data forwarded with `explicitForward == true`; otherwise it replaces the entry of `key`. -/
def addForwardedData (n : Node V) (key : String) (value : Any V) (explicitForward : Bool) :
    Node V :=
  if !explicitForward && (n.values.lookup key).any (·.2) then n
  else { n with values := n.values.insert key (value, explicitForward) }

/-! ### Progress -/

/-- Modelled from the spec: `node::set_steps` is in `node.cpp`. Sections 4.2 and 4.7: it
declares `steps` as the most the node will step, the budget `step` charges against. -/
def setSteps (n : Node V) (steps : UInt64) : Node V :=
  { n with parameters := { n.parameters with stepsTotal := steps }, stepsLeft := steps }

/-- Modelled from the spec: `node::step_overflow` is in `node.cpp`. Section 4.7: it records a
diagnostic and clamps what is left to zero. -/
def stepOverflow (n : Node V) : Node V :=
  { n with
    log := n.log ++ [⟨n.parameters.name, n.parameters.stepsTotal, n.stepsLeft⟩]
    stepsLeft := 0 }

/-- The states `node::step` asserts the node is in. The source lists `STATE_IN_END` twice. -/
def stepAsserted (s : State) : Bool :=
  s == .inEnd || s == .inBegin || s == .afterBegin || s == .inEnd

/-- `node::step(steps)` (the source's default is one step): charge `steps` against what is
left, or call `step_overflow` when it does not fit, and step the progress indicator by `steps`
either way. `none` is the failed `assert`. -/
def step (n : Node V) (steps : UInt64) : Option (Node V) :=
  if stepAsserted n.state then
    let n := if n.stepsLeft < steps then n.stepOverflow else { n with stepsLeft := n.stepsLeft - steps }
    some { n with pi := n.pi.step steps }
  else none

/-! ### Shared datastructures -/

/-- `node::set_datastructure(name, datastructure)`: the table of the node's node map, updated
in the heap. -/
def setDatastructure (n : Node V) (heap : Heap Info V) (name : String) (datastructure : V) :
    Except Exception (Heap Info V) := do
  let structures ← (heap n.getNodeMap).datastructures.setDatastructure name datastructure
  pure (Function.update heap n.getNodeMap ⟨structures⟩)

/-- `node::get_datastructure<T>(name)`, on the table of the node's node map. -/
def getDatastructure (n : Node V) (heap : Heap Info V) (T : Ty) (name : String) :
    Except Exception V :=
  (heap n.getNodeMap).datastructures.getDatastructure T name

/-! ### Names -/

/-- `node::set_breadcrumb(breadcrumb)`: the breadcrumb becomes the name when there is none,
and is put in front of it, `breadcrumb | name`, otherwise. -/
def setBreadcrumb (n : Node V) (breadcrumb : String) : Node V :=
  { n with parameters := { n.parameters with
      name := if n.parameters.name.isEmpty then breadcrumb
        else breadcrumb ++ " | " ++ n.parameters.name } }

theorem intercalate_go_append (acc sep : String) (l m : List String) :
    String.intercalate.go acc sep (l ++ m) =
      String.intercalate.go (String.intercalate.go acc sep l) sep m := by
  induction l generalizing acc with
  | nil => rfl
  | cons a l ih => exact ih _

/-- Joining the last two pieces first does not change the joined string. -/
theorem intercalate_append_pair (sep x y : String) (l : List String) :
    sep.intercalate (l ++ [x, y]) = sep.intercalate (l ++ [x ++ sep ++ y]) := by
  cases l with
  | nil => simp [String.intercalate, String.intercalate.go, String.append_assoc]
  | cons a l =>
    simp only [List.cons_append, String.intercalate, intercalate_go_append]
    simp [String.intercalate.go, String.append_assoc]

theorem setBreadcrumb_name_of_eq {n : Node V} (h : n.parameters.name = "") (breadcrumb : String) :
    (n.setBreadcrumb breadcrumb).parameters.name = breadcrumb := by
  simp only [setBreadcrumb, h]
  rfl

theorem setBreadcrumb_name_of_ne {n : Node V} (h : n.parameters.name ≠ "") (breadcrumb : String) :
    (n.setBreadcrumb breadcrumb).parameters.name = breadcrumb ++ " | " ++ n.parameters.name := by
  simp [setBreadcrumb, String.isEmpty_iff, h]

/-- **Breadcrumbs build a path.** A named node that receives breadcrumbs `bs`, innermost first,
as nested factories hand them out, is named by the breadcrumbs outermost first and then its own
name, separated by ` | `. -/
theorem setBreadcrumb_foldl_name (n : Node V) (h : n.parameters.name ≠ "") (bs : List String) :
    (bs.foldl setBreadcrumb n).parameters.name =
      " | ".intercalate (bs.reverse ++ [n.parameters.name]) := by
  induction bs generalizing n with
  | nil => rfl
  | cons b bs ih =>
    have hb : (n.setBreadcrumb b).parameters.name ≠ "" := by
      rw [setBreadcrumb_name_of_ne h]
      exact fun e => by simpa [show " | ".length = 3 from rfl] using congrArg String.length e
    rw [List.foldl_cons, ih _ hb, setBreadcrumb_name_of_ne h, List.reverse_cons,
      List.append_assoc, List.singleton_append, intercalate_append_pair]

/-- **The name after any breadcrumbs.** While a node has no name, empty breadcrumbs leave it
so; the first breadcrumb that is not empty becomes the name, and every later one, empty or not,
is put in front. So the name is the pieces from the first nonempty one on, outermost first,
separated by ` | `. -/
theorem name_foldl_setBreadcrumb (n : Node V) (bs : List String) :
    (bs.foldl setBreadcrumb n).parameters.name =
      " | ".intercalate ((n.parameters.name :: bs).dropWhile (· = "")).reverse := by
  by_cases h : n.parameters.name = ""
  · induction bs generalizing n with
    | nil => rw [List.foldl_nil, h]; rfl
    | cons b bs ih =>
      have hb' := setBreadcrumb_name_of_eq h b
      rw [List.foldl_cons, h]
      by_cases hb : b = ""
      · rw [ih _ (hb'.trans hb), hb', hb]
        simp
      · rw [setBreadcrumb_foldl_name _ (by rw [hb']; exact hb), hb']
        simp [hb]
  · rw [setBreadcrumb_foldl_name n h, List.dropWhile_cons_of_neg (by simpa using h),
      List.reverse_cons]

end Node

end Tpie.Pipelining
