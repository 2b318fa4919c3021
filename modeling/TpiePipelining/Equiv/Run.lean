import TpiePipelining.Equiv.Step
import TpiePipelining.Equiv.Fetch

/-!
# Runs of a node

A node's own members, called in any order: the pipeline moves it between states
(`set_state`); the node declares and spends its step budget (`set_steps`, `step`), reads and
writes forwarded metadata (`fetch`, `add_forwarded_data`) and takes breadcrumbs
(`set_breadcrumb`). `exec` is one call, `none` when the `assert` of `step` fails. A `fetch` that
throws does not end the run: these are the runs of hooks that catch what `fetch` throws.

Over every run the token never changes, so the node keeps its id and its node map; the
overflow log and the steps passed to the progress indicator only grow (`Keeps`); and once a
budget is declared, what is left of it never exceeds it (`StepsWithin`). `exec_keeps` checks
each call and `execAll_keeps` a whole run. More exactly, the progress indicator is told the
amount of every `step` call of the run, in order, overflowing ones included (`pi_execAll`).

The forwarded values change only by the run's forwards (`values_exec`, `lookup_execAll`), so
whatever else the node does in between, an explicit entry stays until an explicit forward
replaces it (`execAll_keeps_explicit`), and `can_fetch` and `fetch` see what `forwardedAfter`
says the forwards leave (`fetch_execAll`).
-/

namespace Tpie.Pipelining.Node

variable {Ty V : Type}

/-- A call on a node's own members. -/
inductive Op (Ty V : Type) where
  | setState (s : State)
  | setSteps (steps : UInt64)
  | step (steps : UInt64)
  | fetch (T : Ty) (key : String)
  | addForwardedData (key : String) (value : Any V) (explicitForward : Bool)
  | setBreadcrumb (breadcrumb : String)

/-- The forwards among a run of calls, in order. -/
def forwardsOf : List (Op Ty V) → List (Forward V) :=
  List.filterMap fun
    | .addForwardedData key value explicitForward => some ⟨key, value, explicitForward⟩
    | _ => none

theorem forwardsOf_append (ops ops' : List (Op Ty V)) :
    forwardsOf (ops ++ ops') = forwardsOf ops ++ forwardsOf ops' :=
  List.filterMap_append _ _ _

variable [Rtti Ty V] [DecidableEq Ty] [TypeName Ty]

/-- The node after one call; `none` when the `assert` of `step` fails. A `fetch` that throws
returns the node it left and the run goes on, as in a hook that catches the exception;
`Pipeline.runChecked` is the run the exception ends. -/
def exec (n : Node V) : Op Ty V → Option (Node V)
  | .setState s => some (n.setState s)
  | .setSteps steps => some (n.setSteps steps)
  | .step steps => n.step steps
  | .fetch T key => some (n.fetch T key).2
  | .addForwardedData key value explicitForward =>
    some (n.addForwardedData key value explicitForward)
  | .setBreadcrumb breadcrumb => some (n.setBreadcrumb breadcrumb)

/-- The node after a run of calls; `none` when an `assert` fails. A throwing `fetch` does not
end the run (see `exec`). -/
def execAll (n : Node V) (ops : List (Op Ty V)) : Option (Node V) := ops.foldlM exec n

/-- What every call keeps: the token, and a log and progress that only grow. -/
structure Keeps (n n' : Node V) : Prop where
  token : n'.token = n.token
  log : n.log <+: n'.log
  pi : n.pi.steps <+: n'.pi.steps

/-- A call that leaves the token, the log and the progress alone keeps them. -/
theorem Keeps.of_eq {n n' : Node V} (ht : n'.token = n.token) (hl : n'.log = n.log)
    (hp : n'.pi = n.pi) : Keeps n n' :=
  ⟨ht, hl ▸ List.prefix_refl _, hp ▸ List.prefix_refl _⟩

theorem Keeps.refl (n : Node V) : Keeps n n := .of_eq rfl rfl rfl

theorem Keeps.trans {n n' n'' : Node V} (h : Keeps n n') (h' : Keeps n' n'') : Keeps n n'' :=
  ⟨h'.token.trans h.token, h.log.trans h'.log, h.pi.trans h'.pi⟩

/-- The steps left are within the steps declared. -/
def StepsWithin (n : Node V) : Prop := n.stepsLeft ≤ n.parameters.stepsTotal

theorem step_keeps {n n' : Node V} {k : UInt64} (h : n.step k = some n') :
    Keeps n n' ∧ (StepsWithin n → StepsWithin n') := by
  obtain ⟨-, -, htoken, -, hp, hl, hlog, hpi⟩ := step_spec_of_eq_some h
  refine ⟨⟨htoken, hlog ▸ List.prefix_append _ _, ?_⟩, fun hw => ?_⟩
  · rw [hpi, ProgressIndicator.step]; exact List.prefix_append _ _
  · have hle : n'.stepsLeft.toNat ≤ n.stepsLeft.toNat := hl ▸ charge_le _ _
    exact show n'.stepsLeft.toNat ≤ n'.parameters.stepsTotal.toNat from hp ▸ hle.trans hw

/-- One call keeps the token, only grows the log and the progress, and keeps the steps left
within the steps declared, which `set_steps` establishes. -/
theorem exec_keeps {n n' : Node V} {op : Op Ty V} (h : exec n op = some n') :
    Keeps n n' ∧ (StepsWithin n → StepsWithin n') := by
  cases op with
  | step k => exact step_keeps h
  | fetch T key =>
    obtain rfl : n = n' := (fetch_snd n T key).symm.trans (Option.some.inj h)
    exact ⟨Keeps.refl n, id⟩
  | setSteps k =>
    obtain rfl := Option.some.inj h
    exact ⟨.of_eq rfl rfl rfl, fun _ => UInt64.le_refl k⟩
  | setState _ | setBreadcrumb _ =>
    obtain rfl := Option.some.inj h
    exact ⟨.of_eq rfl rfl rfl, id⟩
  | addForwardedData key value x =>
    obtain rfl := Option.some.inj h
    unfold addForwardedData
    split
    · exact ⟨Keeps.refl n, id⟩
    · exact ⟨.of_eq rfl rfl rfl, id⟩

/-- **Every run keeps the node's identity and its history.** Whatever members are called, in
whatever order, the token never changes, the overflow log and the steps passed to the progress
indicator only grow, and steps left within the steps declared stay so. -/
theorem execAll_keeps {n n' : Node V} {ops : List (Op Ty V)} (h : execAll n ops = some n') :
    Keeps n n' ∧ (StepsWithin n → StepsWithin n') := by
  induction ops generalizing n with
  | nil => obtain rfl := Option.some.inj h; exact ⟨Keeps.refl n, id⟩
  | cons op ops ih =>
    obtain ⟨n₁, h₁, h'⟩ := Option.bind_eq_some.mp h
    obtain ⟨k₁, w₁⟩ := exec_keeps h₁
    obtain ⟨k', w'⟩ := ih h'
    exact ⟨k₁.trans k', w' ∘ w₁⟩

/-- A sorting node declares ten steps, takes a breadcrumb between its two steps and overflows on
the second, which the log records under its new name. -/
theorem execAll_keeps_sort :
    let n : Node Nat := ⟨⟨0, 0⟩, ⟨"sort", 0⟩, ∅, 0, ⟨[]⟩, .inPrepare, []⟩
    let ops : List (Op TypeInfo Nat) :=
      [.setSteps 10, .setState .inBegin, .step 3, .addForwardedData "items" (.holder 5) true,
        .setBreadcrumb "merge", .step 20, .setState .afterBegin]
    let n' : Node Nat := ⟨⟨0, 0⟩, ⟨"merge | sort", 10⟩, [⟨"items", (.holder 5, true)⟩].toAList, 0,
      ⟨[3, 20]⟩, .afterBegin, [⟨"merge | sort", 10, 7⟩]⟩
    execAll n ops = some n' ∧ (Keeps n n' ∧ (StepsWithin n → StepsWithin n')) := by
  intro n ops n'
  have h : execAll n ops = some n' := by unfold n ops n'; rfl
  exact ⟨h, execAll_keeps h⟩

/-! ### Progress over a run -/

/-- One call changes the forwarded values only by the forward it makes. -/
theorem values_exec {n n' : Node V} {op : Op Ty V} (h : exec n op = some n') :
    n'.values = (n.forwardAll (forwardsOf [op])).values := by
  cases op with
  | step k => exact (step_spec_of_eq_some h).2.2.2.1
  | fetch T key => rw [← Option.some.inj h, fetch_snd]; rfl
  | setState _ | setSteps _ | addForwardedData _ _ _ | setBreadcrumb _ =>
    obtain rfl := Option.some.inj h
    rfl

/-- Over a run, every key's entry changes only by the run's forwards to it. -/
theorem lookup_execAll {n n' : Node V} {ops : List (Op Ty V)} (h : execAll n ops = some n')
    (key : String) :
    n'.values.lookup key = forwardedAfter (n.values.lookup key) key (forwardsOf ops) := by
  induction ops generalizing n with
  | nil => obtain rfl := Option.some.inj h; exact (forwardedAfter_nil _ _).symm
  | cons op ops ih =>
    obtain ⟨n₁, h₁, h'⟩ := Option.bind_eq_some.mp h
    rw [ih h', values_exec h₁, lookup_forwardAll, ← forwardedAfter_append, ← forwardsOf_append]
    rfl

/-- **What a node can fetch after a run.** Whatever the node did between its forwards (state
changes, steps, breadcrumbs, other fetches), a key can be fetched exactly when the forwards of
the run, with what the key held before, leave an entry (`forwardedAfter`), and `fetch<T>`
returns `v` exactly when that entry holds `v` as a `T`. -/
theorem fetch_execAll {n n' : Node V} {ops : List (Op Ty V)} (h : execAll n ops = some n')
    (key : String) :
    (n'.canFetch key ↔ (forwardedAfter (n.values.lookup key) key (forwardsOf ops)).isSome) ∧
    ∀ T v, (n'.fetch T key).1 = .ok v ↔
      ∃ b, forwardedAfter (n.values.lookup key) key (forwardsOf ops) = some (.holder v, b) ∧
        Rtti.typeid v = T := by
  rw [← lookup_execAll h]
  exact ⟨canFetch_iff.trans AList.lookup_isSome.symm, fun _ _ => fetch_fst_eq_ok_iff_lookup⟩

/-- **An explicit forward is sticky over a run.** When none of a node's calls forwards to `key`
explicitly, an explicit entry under `key` stays as it is, whatever else the node does. -/
theorem execAll_keeps_explicit {n n' : Node V} {ops : List (Op Ty V)}
    (h : execAll n ops = some n') {key : String} (he : (n.values.lookup key).any (·.2))
    (hops : ∀ value, Op.addForwardedData key value true ∉ ops) :
    n'.values.lookup key = n.values.lookup key := by
  rw [lookup_execAll h]
  refine forwardedAfter_of_explicit he fun f hf hk => ?_
  unfold forwardsOf at hf
  obtain ⟨op, hop, hf⟩ := List.mem_filterMap.mp hf
  cases op with
  | addForwardedData k v x =>
    obtain rfl := Option.some.inj hf
    obtain rfl : k = key := hk
    cases x
    · rfl
    · exact absurd hop (hops v)
  | _ => cases hf

/-- A count forwarded explicitly as `100` stays `100` while the node moves on, steps, and is
sent `50` implicitly. -/
theorem execAll_keeps_explicit_items :
    let n : Node Nat :=
      ⟨⟨0, 0⟩, ⟨"sink", 0⟩, [⟨"items", (.holder 100, true)⟩].toAList, 0, ⟨[]⟩, .inPropagate, []⟩
    let ops : List (Op TypeInfo Nat) :=
      [.setState .inBegin, .addForwardedData "items" (.holder 50) false, .step 1,
        .fetch .sizeT "items"]
    ∃ n', execAll n ops = some n' ∧ (n.values.lookup "items").any (·.2) ∧
      (∀ value, Op.addForwardedData "items" value true ∉ ops) ∧
      n'.values.lookup "items" = some (.holder 100, true) := by
  intro n ops
  obtain ⟨n', h⟩ := Option.isSome_iff_exists.mp (rfl : (execAll n ops).isSome = true)
  have hops : ∀ value, Op.addForwardedData "items" value true ∉ ops := by simp [ops]
  exact ⟨n', h, rfl, hops, execAll_keeps_explicit h rfl hops⟩

/-- A sink that is sent a count explicitly as `100`, then moves on and is sent `50`
implicitly, fetches `100`. -/
theorem fetch_execAll_items :
    let n : Node Nat := ⟨⟨0, 0⟩, ⟨"sink", 0⟩, ∅, 0, ⟨[]⟩, .inPropagate, []⟩
    let ops : List (Op TypeInfo Nat) :=
      [.addForwardedData "items" (.holder 100) true, .setState .afterPropagate,
        .addForwardedData "items" (.holder 50) false, .setState .inBegin]
    ∃ n', execAll n ops = some n' ∧ n'.canFetch "items" ∧ (n'.fetch .sizeT "items").1 = .ok 100 := by
  intro n ops
  obtain ⟨n', h⟩ := Option.isSome_iff_exists.mp (rfl : (execAll n ops).isSome = true)
  have hn' := fetch_execAll h "items"
  exact ⟨n', h, hn'.1.mpr rfl, (hn'.2 .sizeT 100).mpr ⟨true, rfl, rfl⟩⟩

end Tpie.Pipelining.Node
