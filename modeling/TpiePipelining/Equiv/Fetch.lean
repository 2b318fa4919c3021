import TpiePipelining.Node

/-!
# Correctness of `node::fetch`, and forwarding

`fetch<T>(key)` first asks `count(key)` and only then reads the entry with `operator[]`, so
the read never inserts the value-initialised entry `operator[]` would add for a missing key
(`fetch_of_not_mem`, `fetch_of_lookup`). Hence `fetch` returns exactly the stored `T`, throws
`invalid_argument_exception` on a missing key and on a value of another type, and leaves the
node as it was (`fetch_reads_only`). Both messages quote the key (`fetch_error_quotes_key`).

The forwarded values `fetch` reads are written by `add_forwarded_data`. After any run of
forwards a key holds its most recent explicit value, failing that its most recent value
(`lookup_forwardAll`, `forwardedAfter`), so implicit forwards never replace an explicit one
(`forwardedAfter_of_explicit`). `Equiv.Run` carries this over to runs of all of a node's calls.
-/

namespace Tpie.Pipelining.Node

variable {Ty V : Type} [Rtti Ty V] [DecidableEq Ty] [TypeName Ty]

theorem fetch_of_not_mem {n : Node V} {T : Ty} {key : String} (h : key ∉ n.values) :
    n.fetch T key = (.error (.invalidArgumentException
      ("Tried to fetch nonexistent key '" ++ key ++ "' of type " ++ TypeName.name T)), n) := by
  simp [fetch, ValueMap.count, h]

/-- On a key that has an entry, `fetch` is `any_cast` of the stored value, and the node is
unchanged on both outcomes. -/
theorem fetch_of_lookup {n : Node V} {T : Ty} {key : String} {a : Any V} {b : Bool}
    (h : n.values.lookup key = some (a, b)) :
    n.fetch T key = match anyCast T a with
      | .ok v => (.ok v, n)
      | .error _ => (.error (.invalidArgumentException
        ("Trying to fetch key '" ++ key ++ "' of type " ++ TypeName.name T ++
          " but forwarded data was of type " ++ TypeName.name a.type ++
          ". Message was: " ++ badAnyCastWhat)), n) := by
  have hmem : key ∈ n.values := AList.lookup_isSome.mp (by simp [h])
  cases hc : anyCast T a <;> simp [fetch, ValueMap.count, hmem, ValueMap.index_of_lookup h, hc]

/-- `fetch` never changes the node. -/
theorem fetch_snd (n : Node V) (T : Ty) (key : String) : (n.fetch T key).2 = n := by
  rcases h : n.values.lookup key with _ | ⟨a, b⟩
  · rw [fetch_of_not_mem (AList.lookup_eq_none.mp h)]
  · rw [fetch_of_lookup h]
    cases anyCast T a <;> rfl

theorem fetch_fst_eq_ok_iff {n : Node V} {T : Ty} {key : String} {v : V} :
    (n.fetch T key).1 = .ok v ↔
      n.canFetch key ∧ ∃ b, n.values.lookup key = some (.holder v, b) ∧ Rtti.typeid v = T := by
  rcases h : n.values.lookup key with _ | ⟨a, b⟩
  · have hk := AList.lookup_eq_none.mp h
    simp [fetch_of_not_mem hk, hk]
  · have hk : key ∈ n.values := AList.lookup_isSome.mp (by simp [h])
    rw [fetch_of_lookup h]
    rcases anyCast_ok_or_bad T a with ⟨w, hw⟩ | hw
    · obtain ⟨rfl, hT⟩ := anyCast_eq_ok_iff.mp hw
      simp only [hw, Except.ok.injEq, canFetch_iff, hk, true_and]
      exact ⟨fun e => ⟨b, by rw [e], e ▸ hT⟩, fun ⟨_, e, _⟩ => (by simpa using e : w = v ∧ _).1⟩
    · simp only [hw, Option.some.injEq, Prod.mk.injEq, canFetch_iff, hk, true_and]
      refine ⟨nofun, ?_⟩
      rintro ⟨_, ⟨rfl, -⟩, hT⟩
      exact absurd (anyCast_eq_ok_iff.mpr ⟨rfl, hT⟩) (by simp [hw])

/-- `fetch` returns `v` exactly when the key holds `v` as a `T`; that the key can be fetched
then follows. -/
theorem fetch_fst_eq_ok_iff_lookup {n : Node V} {T : Ty} {key : String} {v : V} :
    (n.fetch T key).1 = .ok v ↔
      ∃ b, n.values.lookup key = some (.holder v, b) ∧ Rtti.typeid v = T := by
  refine fetch_fst_eq_ok_iff.trans ⟨fun ⟨_, h⟩ => h, fun h => ⟨?_, h⟩⟩
  obtain ⟨b, hb, -⟩ := h
  exact canFetch_iff.mpr (AList.lookup_isSome.mp (by simp [hb]))

/-- `fetch` returns a value or throws `invalid_argument_exception`: no other exception leaves
it. -/
theorem fetch_fst_ok_or_invalid (n : Node V) (T : Ty) (key : String) :
    (∃ v, (n.fetch T key).1 = .ok v) ∨
      ∃ what, (n.fetch T key).1 = .error (.invalidArgumentException what) := by
  rcases h : n.values.lookup key with _ | ⟨a, b⟩
  · exact .inr ⟨_, by rw [fetch_of_not_mem (AList.lookup_eq_none.mp h)]⟩
  · rw [fetch_of_lookup h]
    rcases anyCast_ok_or_bad T a with ⟨w, hw⟩ | hw <;> simp [hw]

/-- **`fetch` returns exactly the stored `T`, throws `invalid_argument_exception` otherwise,
and leaves the forwarded values, and so `can_fetch`, as they were.** -/
theorem fetch_reads_only (n : Node V) (T : Ty) (key : String) :
    (∀ v, (n.fetch T key).1 = .ok v ↔
      n.canFetch key ∧ ∃ b, n.values.lookup key = some (.holder v, b) ∧ Rtti.typeid v = T) ∧
    ((∃ v, (n.fetch T key).1 = .ok v) ∨
      ∃ what, (n.fetch T key).1 = .error (.invalidArgumentException what)) ∧
    (n.fetch T key).2 = n ∧
    ∀ k, (n.fetch T key).2.canFetch k = n.canFetch k :=
  ⟨fun _ => fetch_fst_eq_ok_iff, fetch_fst_ok_or_invalid n T key, fetch_snd n T key,
    fun _ => by rw [fetch_snd]⟩

/-- Every exception `fetch` throws quotes the key it was asked for. -/
theorem fetch_error_quotes_key {n : Node V} {T : Ty} {key : String} {e : Exception}
    (h : (n.fetch T key).1 = .error e) :
    ∃ pre what post, e = .invalidArgumentException what ∧ what = pre ++ "'" ++ key ++ "'" ++ post := by
  rcases hl : n.values.lookup key with _ | ⟨a, b⟩
  · rw [fetch_of_not_mem (AList.lookup_eq_none.mp hl)] at h
    refine ⟨"Tried to fetch nonexistent key ", _, " of type " ++ TypeName.name T,
      (Except.error.inj h).symm, ?_⟩
    simp only [String.append_assoc]
    rfl
  · rw [fetch_of_lookup hl] at h
    rcases anyCast_ok_or_bad T a with ⟨w, hw⟩ | hw <;> simp only [hw] at h
    · cases h
    · refine ⟨"Trying to fetch key ", _, " of type " ++ TypeName.name T ++
        " but forwarded data was of type " ++ TypeName.name a.type ++ ". Message was: " ++
        badAnyCastWhat, (Except.error.inj h).symm, ?_⟩
      simp only [String.append_assoc]
      rfl

/-! ### Forwarding -/

/-- A call of `add_forwarded_data(key, value, explicitForward)`. -/
structure Forward (V : Type) where
  key : String
  value : Any V
  explicitForward : Bool

/-- The node after the forwards `fs`, in order. -/
def forwardAll (n : Node V) (fs : List (Forward V)) : Node V :=
  fs.foldl (fun n f => n.addForwardedData f.key f.value f.explicitForward) n

/-- What an entry `e` becomes when the values `sent` are forwarded to it, oldest first, each
with whether it was forwarded explicitly: the most recent explicit value; failing that `e`, if
it was forwarded explicitly; failing that the most recent value, or `e` when none was sent. -/
def entryAfter (e : Option (Any V × Bool)) (sent : List (Any V × Bool)) : Option (Any V × Bool) :=
  match (sent.filter (·.2)).getLast? with
  | some x => some x
  | none => if e.any (·.2) then e else sent.getLast?.or e

/-- What the entry `e` of `key` becomes under the forwards `fs`. -/
def forwardedAfter (e : Option (Any V × Bool)) (key : String) (fs : List (Forward V)) :
    Option (Any V × Bool) :=
  entryAfter e ((fs.filter (·.key = key)).map fun f => (f.value, f.explicitForward))

theorem lookup_addForwardedData (n : Node V) (f : Forward V) (key : String) :
    (n.addForwardedData f.key f.value f.explicitForward).values.lookup key =
      if f.key = key then
        (if !f.explicitForward && (n.values.lookup key).any (·.2) then n.values.lookup key
          else some (f.value, f.explicitForward))
      else n.values.lookup key := by
  unfold addForwardedData
  by_cases hk : f.key = key
  · subst hk; split <;> simp_all [AList.lookup_insert]
  · split <;> simp [hk, AList.lookup_insert_ne (Ne.symm hk)]

/-- One more value sent to an entry: the case split `add_forwarded_data` makes. -/
theorem entryAfter_append_singleton (e : Option (Any V × Bool)) (sent : List (Any V × Bool))
    (v : Any V) (x : Bool) :
    entryAfter e (sent ++ [(v, x)]) =
      if !x && (entryAfter e sent).any (·.2) then entryAfter e sent else some (v, x) := by
  have hlast : (sent ++ [(v, x)]).getLast? = some (v, x) := by simp
  cases x with
  | true =>
    have hf : (sent ++ [(v, true)]).filter (·.2) = sent.filter (·.2) ++ [(v, true)] := by simp
    simp only [entryAfter, hf, List.getLast?_append, List.getLast?_singleton, Option.or_some]
    rfl
  | false =>
    have hf : (sent ++ [(v, false)]).filter (·.2) = sent.filter (·.2) := by simp
    simp only [entryAfter, hf, hlast, Option.or_some, Bool.not_false, Bool.true_and]
    rcases hl : (sent.filter (·.2)).getLast? with _ | y <;> simp only [hl]
    · have hall : ∀ z ∈ sent, z.2 = false := fun z hz => by
        simpa using List.filter_eq_nil_iff.mp (List.getLast?_eq_none_iff.mp hl) z hz
      cases he : e.any (·.2)
      · have hold : (sent.getLast?.or e).any (·.2) = false := by
          rcases hs : sent.getLast? with _ | z
          · simpa using he
          · simpa using hall z (List.mem_of_getLast?_eq_some hs)
        simp only [he, hold, Bool.false_eq_true, if_false]
      · simp only [he, if_true]
    · have hy : y.2 = true := (List.mem_filter.mp (List.mem_of_getLast?_eq_some hl)).2
      simp only [Option.any_some, hy, if_true]

theorem forwardedAfter_append_singleton (e : Option (Any V × Bool)) (key : String)
    (fs : List (Forward V)) (f : Forward V) :
    forwardedAfter e key (fs ++ [f]) =
      if f.key = key then
        (if !f.explicitForward && (forwardedAfter e key fs).any (·.2) then forwardedAfter e key fs
          else some (f.value, f.explicitForward))
      else forwardedAfter e key fs := by
  by_cases hk : f.key = key
  · simp [forwardedAfter, List.filter_append, hk, entryAfter_append_singleton]
  · simp [forwardedAfter, List.filter_append, hk]

theorem forwardedAfter_nil (e : Option (Any V × Bool)) (key : String) :
    forwardedAfter e key ([] : List (Forward V)) = e := by
  cases e <;> simp [forwardedAfter, entryAfter]

/-- Forwarding `fs` and then `gs` is forwarding `fs ++ gs`. -/
theorem forwardedAfter_append (e : Option (Any V × Bool)) (key : String) (fs gs : List (Forward V)) :
    forwardedAfter e key (fs ++ gs) = forwardedAfter (forwardedAfter e key fs) key gs := by
  induction gs using List.reverseRecOn with
  | nil => rw [List.append_nil, forwardedAfter_nil]
  | append_singleton gs g ih =>
    rw [← List.append_assoc, forwardedAfter_append_singleton, ih, forwardedAfter_append_singleton]

/-- **Explicit beats implicit, then the most recent wins.** After any run of forwards, every
key holds what `forwardedAfter` says. -/
theorem lookup_forwardAll (n : Node V) (fs : List (Forward V)) (key : String) :
    (n.forwardAll fs).values.lookup key = forwardedAfter (n.values.lookup key) key fs := by
  induction fs using List.reverseRecOn with
  | nil => exact (forwardedAfter_nil _ _).symm
  | append_singleton fs f ih =>
    rw [forwardAll, List.foldl_append, List.foldl_cons, List.foldl_nil, ← forwardAll,
      lookup_addForwardedData, ih, forwardedAfter_append_singleton]

/-- An explicit entry stays when no forward to its key is explicit. -/
theorem forwardedAfter_of_explicit {e : Option (Any V × Bool)} {key : String}
    {fs : List (Forward V)} (he : e.any (·.2))
    (hfs : ∀ f ∈ fs, f.key = key → f.explicitForward = false) : forwardedAfter e key fs = e := by
  have hnil : (((fs.filter (·.key = key)).map fun f => (f.value, f.explicitForward)).filter
      (·.2)) = [] := by
    simpa [List.filter_map] using fun f hf hx hk => absurd hx (by simp [hfs f hf hk])
  simp [forwardedAfter, entryAfter, hnil, he]

end Tpie.Pipelining.Node
