import TpiePipelining.Equiv.Pipeline

/-!
# Exceptions in a running pipeline

`fetch`, `set_datastructure` and `get_datastructure` throw, and a C++ exception unwinds the
hook that made the call, so a run of calls ends at the first one that throws. `thrown` reads
off the source functions whether a call throws, and what; `runChecked` runs the calls of a
pipeline as they happen: it stops at the first call that throws, with the exception and the
pipeline as the call left it (`none` is a failed `assert` of `step`, as for `run`).

* `act_of_thrown`: a call that throws leaves the pipeline exactly as it was.
  `set_datastructure` throws before it assigns, `get_datastructure` only reads, and `fetch`
  throws before reading a missing key and reads an existing one with `operator[]`, which then
  inserts nothing.
* `thrown_cases`: what a call can throw. `fetch` throws `invalid_argument_exception`,
  `set_datastructure` the `tpie::exception` for an unregistered name, and `get_datastructure`
  its counterpart or `bad_any_cast`.
* `runChecked_eq_error_iff`: a run throws exactly at its first call that throws, and ends with
  the pipeline the calls before it left, which rests on `act_of_thrown`.

`runChecked_eq_ok_iff`, that a checked run completes exactly when `run` does with no call
throwing on the way, is the early exit's own bookkeeping, true whatever the calls do; it is
what carries the results about `run` over to the checked runs that complete.
-/

namespace Tpie.Pipelining.Pipeline

variable {Ty V Info : Type}

/-- The exception a failed result carries. -/
def thrownBy {α : Type} : Except Exception α → Option Exception
  | .error e => some e
  | .ok _ => none

@[simp]
theorem thrownBy_eq_some {α : Type} {x : Except Exception α} {e : Exception} :
    thrownBy x = some e ↔ x = .error e := by
  cases x <;> simp [thrownBy]

/-- A run splits after its first call, or not at all before it. -/
theorem exists_split_cons {α : Type} {P : List α → α → List α → Prop} {b : α} {bs : List α} :
    (∃ pre a post, b :: bs = pre ++ a :: post ∧ P pre a post) ↔
      P [] b bs ∨ ∃ pre a post, bs = pre ++ a :: post ∧ P (b :: pre) a post := by
  constructor
  · rintro ⟨pre, a, post, hs, hp⟩
    rcases List.cons_eq_append_iff.mp hs with ⟨rfl, he⟩ | ⟨pre', rfl, hs'⟩
    · obtain ⟨rfl, rfl⟩ := List.cons.inj he
      exact .inl hp
    · exact .inr ⟨pre', a, post, hs', hp⟩
  · rintro (hp | ⟨pre, a, post, rfl, hp⟩)
    · exact ⟨[], b, bs, rfl, hp⟩
    · exact ⟨b :: pre, a, post, rfl, hp⟩

theorem forall_split_cons {α : Type} {P : List α → α → List α → Prop} {b : α} {bs : List α} :
    (∀ pre a post, b :: bs = pre ++ a :: post → P pre a post) ↔
      P [] b bs ∧ ∀ pre a post, bs = pre ++ a :: post → P (b :: pre) a post := by
  refine ⟨fun h => ⟨h [] b bs rfl, fun pre a post hs => h (b :: pre) a post (by rw [hs]; rfl)⟩, ?_⟩
  rintro ⟨h₀, h⟩ pre a post hs
  rcases List.cons_eq_append_iff.mp hs with ⟨rfl, he⟩ | ⟨pre', rfl, hs'⟩
  · obtain ⟨rfl, rfl⟩ := List.cons.inj he
    exact h₀
  · exact h pre' a post hs'

variable [Rtti Ty V] [DecidableEq Ty] [TypeName Ty]

/-- The exception a call throws on the pipeline `p`, if it throws. -/
def thrown (p : Pipeline Info V) : Action Ty V → Option Exception
  | .own i (.fetch T key) => thrownBy ((p.nodes i).fetch T key).1
  | .own _ _ => none
  | .datastructure i (.set name v) => thrownBy ((p.nodes i).setDatastructure p.heap name v)
  | .datastructure i (.get T name) => thrownBy ((p.nodes i).getDatastructure p.heap T name)

/-- A run of calls as it happens: it ends at the first call that throws, with the exception
and the pipeline as the call left it; `none` when an `assert` fails. -/
def runChecked (p : Pipeline Info V) :
    List (Action Ty V) → Option (Except (Exception × Pipeline Info V) (Pipeline Info V))
  | [] => some (.ok p)
  | a :: as => (p.act a).bind fun p₁ =>
    match p.thrown a with
    | some e => some (.error (e, p₁))
    | none => p₁.runChecked as

/-! ### One call -/

/-- **A call that throws changes nothing.** -/
theorem act_of_thrown {p : Pipeline Info V} {a : Action Ty V} {e : Exception}
    (h : p.thrown a = some e) : p.act a = some p := by
  cases a with
  | own i op =>
    cases op with
    | fetch T key =>
      exact act_own_eq_some_iff.mpr ⟨p.nodes i, congrArg some (Node.fetch_snd _ _ _),
        (Function.update_eq_self i p.nodes).symm, rfl⟩
    | _ => simp [thrown] at h
  | datastructure i c =>
    cases c with
    | get T name => rfl
    | set name v =>
      show some { p with heap := Node.call p.heap (p.nodes i) (.set name v) } = some p
      simp only [Node.call, thrownBy_eq_some.mp h]

/-- What a call can throw, by the member that throws it. -/
theorem thrown_cases {p : Pipeline Info V} {a : Action Ty V} {e : Exception}
    (h : p.thrown a = some e) :
    (∃ i T key what, a = .own i (.fetch T key) ∧ e = .invalidArgumentException what) ∨
    (∃ i name v, a = .datastructure i (.set name v) ∧
      e = .exception "attempted to set non-registered datastructure") ∨
    (∃ i T name, a = .datastructure i (.get T name) ∧
      (e = .exception "attempted to get non-registered datastructure" ∨ e = .badAnyCast)) := by
  cases a with
  | own i op =>
    cases op with
    | fetch T key =>
      have hf := thrownBy_eq_some.mp h
      rcases Node.fetch_fst_ok_or_invalid (p.nodes i) T key with ⟨v, hv⟩ | ⟨what, hw⟩
      · rw [hv] at hf; cases hf
      · exact .inl ⟨i, T, key, what, rfl, Except.error.inj (hf.symm.trans hw)⟩
    | _ => simp [thrown] at h
  | datastructure i c =>
    cases c with
    | set name v =>
      have hs := thrownBy_eq_some.mp h
      refine .inr (.inl ⟨i, name, v, rfl, ?_⟩)
      rcases hl : (p.heap (p.nodes i).getNodeMap).datastructures.lookup name with _ | ⟨info, a⟩ <;>
        simp [Node.setDatastructure, DatastructureMap.setDatastructure, hl] at hs
      exact hs.symm
    | get T name =>
      have hg := thrownBy_eq_some.mp h
      refine .inr (.inr ⟨i, T, name, rfl, ?_⟩)
      rcases hl : (p.heap (p.nodes i).getNodeMap).datastructures.lookup name with _ | ⟨info, a⟩
      · simp [Node.getDatastructure, DatastructureMap.getDatastructure, hl] at hg
        exact .inl hg.symm
      · rw [Node.getDatastructure, DatastructureMap.getDatastructure_of_lookup T hl] at hg
        rcases anyCast_ok_or_bad T a with ⟨v, hv⟩ | hv
        · rw [hv] at hg; cases hg
        · exact .inr (Except.error.inj (hg.symm.trans hv))

/-! ### Runs -/

theorem runChecked_cons_of_thrown {p : Pipeline Info V} {a : Action Ty V} {e : Exception}
    (h : p.thrown a = some e) (as : List (Action Ty V)) :
    p.runChecked (a :: as) = some (.error (e, p)) := by
  simp only [runChecked, act_of_thrown h, Option.some_bind, h]

theorem runChecked_cons_of_not_thrown {p : Pipeline Info V} {a : Action Ty V}
    (h : p.thrown a = none) (as : List (Action Ty V)) :
    p.runChecked (a :: as) = (p.act a).bind (·.runChecked as) := by
  simp only [runChecked, h]

/-- A checked run returns from every call and ends in `p'` exactly when `run` ends in `p'` and
no call throws on the pipeline the calls before it left. This holds of the early exit whatever
the calls do; it carries the results about `run` over to the checked runs that complete. -/
theorem runChecked_eq_ok_iff {p p' : Pipeline Info V} {as : List (Action Ty V)} :
    p.runChecked as = some (.ok p') ↔
      p.run as = some p' ∧
        ∀ pre a post, as = pre ++ a :: post → ∀ p₁, p.run pre = some p₁ → p₁.thrown a = none := by
  induction as generalizing p with
  | nil => simp [runChecked]
  | cons b bs ih =>
    rw [forall_split_cons]
    cases hb : p.thrown b with
    | some e => simp [runChecked_cons_of_thrown hb, hb]
    | none =>
      rw [runChecked_cons_of_not_thrown hb, run_cons]
      cases ha : p.act b with
      | none => simp
      | some p₁ => simp [ih, hb, run_cons, ha]

/-- **A run ends at its first exception and keeps what came before.** A checked run throws `e`
and ends in `p'` exactly when its calls split as `pre ++ a :: post`, where `pre` completes in
`p'` and `a` throws `e` there: no call after `a` runs, and `a` changes nothing. -/
theorem runChecked_eq_error_iff {p p' : Pipeline Info V} {as : List (Action Ty V)}
    {e : Exception} :
    p.runChecked as = some (.error (e, p')) ↔
      ∃ pre a post, as = pre ++ a :: post ∧ p.runChecked pre = some (.ok p') ∧
        p'.thrown a = some e := by
  induction as generalizing p with
  | nil => exact ⟨fun h => (by cases h), fun ⟨pre, a, post, hs, _⟩ => by simp at hs⟩
  | cons b bs ih =>
    rw [exists_split_cons]
    cases hb : p.thrown b with
    | some e₀ =>
      rw [runChecked_cons_of_thrown hb]
      refine ⟨fun h => ?_, ?_⟩
      · obtain ⟨rfl, rfl⟩ : e₀ = e ∧ p = p' := by simpa using h
        exact .inl ⟨rfl, hb⟩
      · rintro (⟨hr, ht⟩ | ⟨pre, a, post, -, hr, -⟩)
        · obtain rfl : p = p' := Except.ok.inj (Option.some.inj hr)
          rw [Option.some.inj (hb.symm.trans ht)]
        · rw [runChecked_cons_of_thrown hb] at hr
          cases hr
    | none =>
      have hnil : ¬ (p.runChecked [] = some (.ok p') ∧ p'.thrown b = some e) := fun ⟨hr, ht⟩ => by
        obtain rfl : p = p' := Except.ok.inj (Option.some.inj hr)
        rw [hb] at ht
        cases ht
      simp only [hnil, false_or, runChecked_cons_of_not_thrown hb]
      cases p.act b with
      | none => simp
      | some p₁ => simp only [Option.some_bind, ih]

end Pipeline

end Tpie.Pipelining
