import TpiePipelining.Node

/-!
# Correctness of `node::step`

`step(k)` takes `k` from the steps left only after checking that `k` fits, so the unsigned
counter never wraps. Over ℕ it is the budget machine `Budget`: a call either fits and is
charged, or overflows, which empties the budget and records what was left. One call of
`step` is one call of the machine (`step_spec`), so a run of `step` from `set_steps(n)` is a
run of the machine from `n` (`runSteps_refines`).

The machine keeps `charged + left + lost = n`, `lost` being what the overflows emptied
(`charged_add_left_add_lost_run`): what is left stays within `[0, n]`, and the steps charged
plus what is left make `n` until the first overflow. `step_budget` puts this together.
-/

namespace Tpie.Pipelining

/-! ### The budget machine -/

/-- What is left of a budget `b` after a call of `k` steps: `b - k` when the call fits, and
nothing after an overflow. -/
def charge (b k : ℕ) : ℕ := if b < k then 0 else b - k

theorem charge_le (b k : ℕ) : charge b k ≤ b := by
  unfold charge; split <;> omega

/-- The budget `step` charges against, over ℕ: what is left, the steps charged by the calls
that fit, and what was left at each call that did not. -/
structure Budget where
  left : ℕ
  charged : ℕ
  overflows : List ℕ
  deriving DecidableEq, Repr

namespace Budget

/-- A budget of `n` steps, nothing charged yet. -/
def init (n : ℕ) : Budget := ⟨n, 0, []⟩

/-- A call of `k` steps: charged when it fits; otherwise an overflow, which empties the budget
and records what was left. -/
def step (b : Budget) (k : ℕ) : Budget :=
  if b.left < k then ⟨0, b.charged, b.overflows ++ [b.left]⟩
  else ⟨b.left - k, b.charged + k, b.overflows⟩

/-- The budget after calls of `ks` steps, in order. -/
def run (b : Budget) (ks : List ℕ) : Budget := ks.foldl step b

/-- The steps the overflows emptied: what was left at each. -/
def lost (b : Budget) : ℕ := b.overflows.foldl (· + ·) 0

@[simp] theorem left_step (b : Budget) (k : ℕ) : (b.step k).left = charge b.left k := by
  unfold step charge; split <;> rfl

theorem charged_add_left_add_lost_step (b : Budget) (k : ℕ) :
    (b.step k).charged + (b.step k).left + (b.step k).lost = b.charged + b.left + b.lost := by
  unfold step lost; split <;> simp only [List.foldl_append, List.foldl_cons, List.foldl_nil] <;> omega

/-- **Nothing is lost but what the overflows emptied**: the steps charged, what is left and
what was left at the overflows always add up to the same. -/
theorem charged_add_left_add_lost_run (b : Budget) (ks : List ℕ) :
    (b.run ks).charged + (b.run ks).left + (b.run ks).lost = b.charged + b.left + b.lost := by
  induction ks generalizing b with
  | nil => rfl
  | cons k ks ih => exact (ih (b.step k)).trans (charged_add_left_add_lost_step b k)

end Budget

/-! ### One call of `step` -/

namespace Node

variable {V : Type}

theorem ofNat_toNat (x : UInt64) : UInt64.ofNat x.toNat = x :=
  UInt64.toNat.inj (UInt64.toNat_ofNat_of_lt x.toNat_lt_size)

/-- The diagnostic `step_overflow` records for `t` when `l` steps are left. -/
def overflowAt (t : Node V) (l : ℕ) : StepOverflow :=
  ⟨t.parameters.name, t.parameters.stepsTotal, UInt64.ofNat l⟩

/-- `step` called with each of `ks` in turn; `none` when an `assert` fails. -/
def runSteps (t : Node V) (ks : List UInt64) : Option (Node V) := ks.foldlM step t

theorem runSteps_cons (t : Node V) (k : UInt64) (ks : List UInt64) :
    t.runSteps (k :: ks) = (t.step k).bind (·.runSteps ks) := rfl

theorem step_eq_none {t : Node V} (h : stepAsserted t.state = false) (k : UInt64) :
    t.step k = none := by
  simp [step, h]

/-- The states `step`'s `assert` admits: `STATE_IN_END` is listed twice, and the three states
are `IN_BEGIN`, `AFTER_BEGIN` and `IN_END`. -/
theorem stepAsserted_iff (s : State) :
    stepAsserted s = true ↔ s = .inBegin ∨ s = .afterBegin ∨ s = .inEnd := by
  cases s <;> decide

/-- **Everything one call of `step` does.** Within `begin` and `end` it returns; it keeps the
state, the token, the forwarded values and the parameters; what is left is charged over ℕ, so
never wraps; the log gains one diagnostic exactly when the call does not fit; the progress
indicator gets the call. -/
theorem step_spec {t : Node V} (h : stepAsserted t.state) (k : UInt64) :
    ∃ t', t.step k = some t' ∧ t'.state = t.state ∧ t'.token = t.token ∧ t'.values = t.values ∧
      t'.parameters = t.parameters ∧
      t'.stepsLeft.toNat = charge t.stepsLeft.toNat k.toNat ∧
      t'.log = t.log ++ (if t.stepsLeft < k then [t.overflowAt t.stepsLeft.toNat] else []) ∧
      t'.pi = t.pi.step k := by
  by_cases hk : t.stepsLeft < k
  · have hk' : t.stepsLeft.toNat < k.toNat := hk
    refine ⟨{ t.stepOverflow with pi := t.pi.step k }, by simp [step, h, hk]; rfl, rfl, rfl, rfl,
      rfl, by simp [stepOverflow, charge, hk'], by simp [stepOverflow, overflowAt, hk, ofNat_toNat], rfl⟩
  · have hk' : k ≤ t.stepsLeft := UInt64.not_lt.mp hk
    refine ⟨{ t with stepsLeft := t.stepsLeft - k, pi := t.pi.step k }, by simp [step, h, hk],
      rfl, rfl, rfl, rfl, ?_, by simp [hk], rfl⟩
    have hk'' : k.toNat ≤ t.stepsLeft.toNat := hk'
    simp only [charge, UInt64.toNat_sub_of_le _ _ hk', if_neg (Nat.not_lt.mpr hk'')]

/-- What a call of `step` that returned did, read from its result. -/
theorem step_spec_of_eq_some {t t' : Node V} {k : UInt64} (h : t.step k = some t') :
    stepAsserted t.state ∧ t'.state = t.state ∧ t'.token = t.token ∧ t'.values = t.values ∧
      t'.parameters = t.parameters ∧
      t'.stepsLeft.toNat = charge t.stepsLeft.toNat k.toNat ∧
      t'.log = t.log ++ (if t.stepsLeft < k then [t.overflowAt t.stepsLeft.toNat] else []) ∧
      t'.pi = t.pi.step k := by
  cases ha : stepAsserted t.state
  · simp [step_eq_none ha] at h
  · obtain ⟨t₁, h₁, hrest⟩ := step_spec ha k
    obtain rfl := Option.some.inj (h₁.symm.trans h)
    exact ⟨rfl, hrest⟩

/-- **`step` returns exactly within `begin` and `end`**: in `IN_BEGIN`, `AFTER_BEGIN` and
`IN_END`, whatever the number of steps, and its `assert` fails in every other state, `AFTER_END`
included. -/
theorem step_isSome_iff (t : Node V) (k : UInt64) :
    (t.step k).isSome ↔ t.state = .inBegin ∨ t.state = .afterBegin ∨ t.state = .inEnd := by
  rw [← stepAsserted_iff]
  cases h : stepAsserted t.state
  · simp [step_eq_none h]
  · obtain ⟨t', ht', -⟩ := step_spec h k
    simp [ht']

/-! ### Runs of `step` -/

/-- **A run of `step` is a run of the budget machine.** From a node whose steps left are the
budget's, and whose log holds `L` and a diagnostic for each overflow of the budget, `step`
returns on every call, and afterwards the same holds of the budget after the calls. -/
theorem runSteps_refines {t : Node V} {B : Budget} {L : List StepOverflow}
    (ht : stepAsserted t.state) (hleft : t.stepsLeft.toNat = B.left)
    (hlog : t.log = L ++ B.overflows.map t.overflowAt) (ks : List UInt64) :
    ∃ t', t.runSteps ks = some t' ∧ t'.state = t.state ∧ t'.parameters = t.parameters ∧
      t'.stepsLeft.toNat = (B.run (ks.map UInt64.toNat)).left ∧
      t'.log = L ++ (B.run (ks.map UInt64.toNat)).overflows.map t.overflowAt ∧
      t'.pi.steps = t.pi.steps ++ ks := by
  induction ks generalizing t B with
  | nil => exact ⟨t, rfl, rfl, rfl, hleft, hlog, (List.append_nil _).symm⟩
  | cons k ks ih =>
    obtain ⟨t₁, h₁, hs₁, -, -, hp₁, hl₁, hlog₁, hpi₁⟩ := step_spec ht k
    have hov : t₁.overflowAt = t.overflowAt := by unfold overflowAt; rw [hp₁]
    have hlt : t.stepsLeft < k ↔ B.left < k.toNat := by rw [← hleft]; rfl
    have hlog₁' : t₁.log = L ++ (B.step k.toNat).overflows.map t₁.overflowAt := by
      rw [hlog₁, hlog, hov, hleft]
      by_cases hk : B.left < k.toNat <;> simp [Budget.step, hk, hlt]
    obtain ⟨t', h', hs', hp', hl', hlog', hpi'⟩ :=
      ih (hs₁ ▸ ht) (by rw [hl₁, hleft, Budget.left_step]) hlog₁'
    refine ⟨t', by rw [runSteps_cons, h₁]; exact h', hs'.trans hs₁, hp'.trans hp₁, hl',
      by rw [hlog', hov]; rfl, ?_⟩
    rw [hpi', hpi₁, ProgressIndicator.step, List.append_assoc]
    rfl

/-- **The step budget.** After `set_steps(n)` on a node within `begin` and `end`, every call of
any run of `step` returns. After the run, what is left is the budget machine's, so the counter
never wrapped, and at most `n`. The next call never raises it, subtracts only when the call
fits, and calls `step_overflow`, once, exactly when it does not. The log holds one diagnostic
for each overflow of the run, in order. The steps charged plus what is left are at most `n`,
and `n` when no call overflowed. The progress indicator got every call. -/
theorem step_budget (s : Node V) (n : UInt64) (ks : List UInt64) (hs : stepAsserted s.state) :
    ∃ t, (s.setSteps n).runSteps ks = some t ∧
      t.stepsLeft.toNat = ((Budget.init n.toNat).run (ks.map UInt64.toNat)).left ∧
      ((Budget.init n.toNat).run (ks.map UInt64.toNat)).left ≤ n.toNat ∧
      (∀ k, ∃ t', t.step k = some t' ∧ t'.stepsLeft ≤ t.stepsLeft ∧
        t'.pi.steps = t.pi.steps ++ [k] ∧
        (k ≤ t.stepsLeft → t'.stepsLeft.toNat = t.stepsLeft.toNat - k.toNat ∧ t'.log = t.log) ∧
        (t.stepsLeft < k → t'.stepsLeft = 0 ∧
          t'.log = t.log ++ [⟨s.parameters.name, n, t.stepsLeft⟩])) ∧
      t.log = s.log ++ ((Budget.init n.toNat).run (ks.map UInt64.toNat)).overflows.map
        (fun l => ⟨s.parameters.name, n, UInt64.ofNat l⟩) ∧
      ((Budget.init n.toNat).run (ks.map UInt64.toNat)).charged +
        ((Budget.init n.toNat).run (ks.map UInt64.toNat)).left ≤ n.toNat ∧
      (((Budget.init n.toNat).run (ks.map UInt64.toNat)).overflows = [] →
        ((Budget.init n.toNat).run (ks.map UInt64.toNat)).charged +
          ((Budget.init n.toNat).run (ks.map UInt64.toNat)).left = n.toNat) ∧
      t.pi.steps = s.pi.steps ++ ks := by
  obtain ⟨t, hrun, hst, hpar, hleft, hlog, hpi⟩ :=
    runSteps_refines (t := s.setSteps n) (B := Budget.init n.toNat) (L := s.log) hs rfl
      (by simp [setSteps, Budget.init]) ks
  have hsum : ((Budget.init n.toNat).run (ks.map UInt64.toNat)).charged +
      ((Budget.init n.toNat).run (ks.map UInt64.toNat)).left +
      ((Budget.init n.toNat).run (ks.map UInt64.toNat)).lost = n.toNat :=
    (Budget.charged_add_left_add_lost_run _ _).trans (Nat.zero_add _)
  refine ⟨t, hrun, hleft, by omega, fun k => ?_, hlog, by omega,
    fun h => by rw [Budget.lost, h, List.foldl_nil] at hsum; omega, hpi⟩
  obtain ⟨t', h', -, -, -, hp', hl', hlog', hpi'⟩ := step_spec (hst ▸ hs) k
  have hle : t'.stepsLeft ≤ t.stepsLeft := show t'.stepsLeft.toNat ≤ _ from hl' ▸ charge_le _ _
  refine ⟨t', h', hle, by rw [hpi']; rfl, fun hk => ?_, fun hk => ?_⟩
  · have hk' : ¬ t.stepsLeft.toNat < k.toNat := Nat.not_lt.mpr hk
    simp only [hl', charge, if_neg hk', hlog', if_neg (UInt64.not_lt.mpr hk), List.append_nil,
      and_self]
  · have hk' : t.stepsLeft.toNat < k.toNat := hk
    refine ⟨UInt64.toNat.inj (by simp [hl', charge, hk']), ?_⟩
    rw [hlog', if_pos hk, overflowAt, hpar, ofNat_toNat]
    rfl

/-- After `set_steps(10)`, `step(15)` overflows and leaves nothing, and a further `step(1)`
overflows once more. -/
theorem step_budget_overflows_twice :
    let s : Node Nat := ⟨⟨0, 0⟩, ⟨"sort", 0⟩, ∅, 0, ⟨[]⟩, .inEnd, []⟩
    stepAsserted s.state ∧
      ∃ t, (s.setSteps 10).runSteps [15, 1] = some t ∧ t.stepsLeft = 0 ∧ t.log.length = 2 := by
  intro s
  obtain ⟨t, h, hl, -, -, hlog, -⟩ := step_budget s 10 [15, 1] rfl
  exact ⟨rfl, t, h, UInt64.toNat.inj hl, by rw [hlog]; rfl⟩

end Node

end Tpie.Pipelining
