import Cur8or.MessageProcessing

/-! Registration histories: which targets a resolver accepts after any sequence of
`registerCallback` calls, whose functor answers them, and which keys can be reached at all. -/
namespace PathRegistrations

open CxxLibrary PosixPath UtilitiesAdaptors PathResolver MessageProcessing

variable {σ : Type*}

abbrev Registration (σ : Type*) := Bytes × QueryProgram σ

def registered (calls : List (Registration σ)) : VirtualPathMap σ :=
  calls.foldl (fun pathMap call => registerCallback pathMap call.1 call.2) .empty

theorem registered_append (calls : List (Registration σ)) (call : Registration σ) :
    registered (calls ++ [call]) = registerCallback (registered calls) call.1 call.2 := by
  rw [registered, List.foldl_append]
  rfl

def firstCallback (calls : List (Registration σ)) (key : Bytes) : Option (QueryProgram σ) :=
  (calls.find? (fun call => call.1 = key)).map Prod.snd

theorem firstCallback_cons (call : Registration σ) (calls : List (Registration σ)) (key : Bytes) :
    firstCallback (call :: calls) key =
      if key = call.1 then some call.2 else firstCallback calls key := by
  by_cases h : key = call.1
  · simp [firstCallback, h]
  · have h' : ¬ call.1 = key := fun e => h e.symm
    simp [firstCallback, h, h']

theorem foldl_find (calls : List (Registration σ)) (pathMap : VirtualPathMap σ) (key : Bytes) :
    (calls.foldl (fun pathMap call => registerCallback pathMap call.1 call.2) pathMap).find? key =
      (pathMap.find? key).or (firstCallback calls key) := by
  induction calls generalizing pathMap with
  | nil => simp [firstCallback]
  | cons call calls ih =>
    rw [List.foldl_cons, ih, registerCallback, UnorderedMap.find?_emplace, firstCallback_cons]
    by_cases h : key = call.1
    · rw [if_pos h, if_pos h, h]
      cases pathMap.find? call.1 <;> rfl
    · rw [if_neg h, if_neg h]

/-- The first registration of a key wins. -/
theorem registered_find (calls : List (Registration σ)) (key : Bytes) :
    (registered calls).find? key = firstCallback calls key := by
  rw [registered, foldl_find]
  rfl

theorem firstCallback_isSome_iff {calls : List (Registration σ)} {key : Bytes} :
    (firstCallback calls key).isSome = true ↔ ∃ call ∈ calls, call.1 = key := by
  simp [firstCallback]

theorem registered_contains_iff {calls : List (Registration σ)} {key : Bytes} :
    (registered calls).contains key = true ↔ ∃ call ∈ calls, call.1 = key := by
  rw [UnorderedMap.contains, registered_find, firstCallback_isSome_iff]

theorem registered_again {calls : List (Registration σ)} {call : Registration σ}
    (h : ∃ earlier ∈ calls, earlier.1 = call.1) :
    registered (calls ++ [call]) = registered calls := by
  have hc := registered_contains_iff.mpr h
  have hmem : call.1 ∈ (registered calls).entries.map Prod.fst := by
    by_contra hn
    rw [UnorderedMap.contains, UnorderedMap.find?_eq_none_iff.mpr hn] at hc
    cases hc
  rw [registered_append]
  exact dif_pos hmem

theorem routeKey_clean {target : Bytes} (h : ¬ dotDot <:+: target) :
    separator ∉ routeKey target ∧ '?'.toUInt8 ∉ routeKey target ∧
      ¬ dotDot <:+: routeKey target := by
  have hinner : routeKey target <+: cutBefore separator target.tail := List.take_prefix _ _
  have hinfix : routeKey target <:+: target :=
    (hinner.trans (List.take_prefix _ _)).isInfix.trans (List.tail_suffix _).isInfix
  refine ⟨?_, notMem_cutBefore _ _, fun hd => h (hd.trans hinfix)⟩
  intro hs
  exact notMem_cutBefore _ _ (hinner.mem hs)

theorem routeKey_slash {key : Bytes} (hs : separator ∉ key) (hq : '?'.toUInt8 ∉ key) :
    routeKey (separator :: key) = key := by
  rw [routeKey, List.tail_cons, cutBefore_of_notMem hs, cutBefore_of_notMem hq]

def slashed (key : Bytes) (h : key.length + 1 < npos) : StringView := ⟨separator :: key, h⟩

theorem slashed_accepted {calls : List (Registration σ)} {key : Bytes} (h : key.length + 1 < npos)
    (hs : separator ∉ key) (hq : '?'.toUInt8 ∉ key) (hd : ¬ dotDot <:+: key)
    (hr : ∃ call ∈ calls, call.1 = key) : Accepted (registered calls) (slashed key h) where
  slash := rfl
  confined := by
    rw [slashed, List.infix_cons_iff]
    rintro (hp | hi)
    · obtain ⟨hdot, _⟩ := List.cons_prefix_cons.mp hp
      exact absurd hdot (by decide)
    · exact hd hi
  counted := by
    apply passes_pos rfl
    have hone : (slashed key h).count separator = 1 := by
      rw [StringView.count, slashed, List.count_cons_self, List.count_eq_zero_of_not_mem hs]
    rw [hone]
    decide
  registered := by
    have hkey : routeKey (slashed key h).bytes = key := routeKey_slash hs hq
    rw [hkey]
    exact registered_contains_iff.mpr hr

structure Resolves (calls : List (Registration σ)) (target : StringView) : Prop where
  /-- What is supported can be told from the text and the keys used. -/
  supported : ∃ b, supportedOperation (registered calls) target = .ok b ∧
    (b = true ↔ target.bytes.head? = some separator ∧ ¬ dotDot <:+: target.bytes ∧
      ∃ call ∈ calls, call.1 = routeKey target.bytes)
  /-- The query of a supported target carries the target and the first functor of its key. -/
  query : supportedOperation (registered calls) target = .ok true →
    ∃ program, firstCallback calls (routeKey target.bytes) = some program ∧
      newQuery (registered calls) target = .ok ⟨target, .empty, program⟩

theorem resolves (calls : List (Registration σ)) {target : StringView}
    (hc : target.bytes.head? = some separator → ¬ dotDot <:+: target.bytes →
      0 < ParamPathAdaptor.standard.passes target) :
    Resolves calls target where
  supported := by
    obtain ⟨b, hb⟩ := supportedOperation_total (registered calls) hc
    refine ⟨b, hb, ?_⟩
    constructor
    · rintro rfl
      have ha := supportedOperation_iff.mp hb
      exact ⟨ha.slash, ha.confined, registered_contains_iff.mp ha.registered⟩
    · rintro ⟨hslash, hdots, hreg⟩
      have ha : Accepted (registered calls) target :=
        ⟨hslash, hdots, hc hslash hdots, registered_contains_iff.mpr hreg⟩
      exact Except.ok.inj (hb.symm.trans (supportedOperation_iff.mpr ha))
  query := by
    intro h
    obtain ⟨program, hfind, hnew⟩ := newQuery_of_accepted (supportedOperation_iff.mp h)
    exact ⟨program, (registered_find calls _).symm.trans hfind, hnew⟩

/-- A target names the key it is accepted under, so keys it cannot spell stay out of reach. -/
theorem reachable_key_iff {calls : List (Registration σ)} {key : Bytes}
    (h : key.length + 1 < npos) (hr : ∃ call ∈ calls, call.1 = key) :
    (∃ target, supportedOperation (registered calls) target = .ok true ∧
      routeKey target.bytes = key) ↔
        separator ∉ key ∧ '?'.toUInt8 ∉ key ∧ ¬ dotDot <:+: key := by
  constructor
  · rintro ⟨target, hs, rfl⟩
    exact routeKey_clean (supportedOperation_iff.mp hs).confined
  · rintro ⟨hs, hq, hd⟩
    refine ⟨slashed key h, ?_, routeKey_slash hs hq⟩
    exact supportedOperation_iff.mpr (slashed_accepted h hs hq hd hr)

theorem registrations_decide (calls : List (Registration σ)) {target : StringView}
    (hc : target.bytes.head? = some separator → ¬ dotDot <:+: target.bytes →
      0 < ParamPathAdaptor.standard.passes target) :
    Resolves calls target ∧
      (∀ call : Registration σ, (∃ earlier ∈ calls, earlier.1 = call.1) →
        registered (calls ++ [call]) = registered calls) ∧
      ∀ key : Bytes, key.length + 1 < npos → (∃ call ∈ calls, call.1 = key) →
        ((∃ t, supportedOperation (registered calls) t = .ok true ∧ routeKey t.bytes = key) ↔
          separator ∉ key ∧ '?'.toUInt8 ∉ key ∧ ¬ dotDot <:+: key) :=
  ⟨resolves calls hc, fun _ h => registered_again h, fun _ h hr => reachable_key_iff h hr⟩

def named (name : Bytes) : QueryProgram Unit := ⟨(), fun c _ _ => (c, ⟨[.data name], .ok ()⟩)⟩

def thrice : List (Registration Unit) :=
  [([], named (text "root")), (text "a", named (text "first")), (text "a", named (text "second"))]

theorem registrations_decide_twice : Resolves thrice (.ofText "/a?b/c") :=
  (registrations_decide thrice (fun _ _ => by decide +kernel)).1

theorem routeKey_slashes {n : ℕ} (h : n < npos) : routeKey (slashes n h).bytes = [] := by
  rw [routeKey, slashes, List.tail_replicate]
  cases n - 1 with
  | zero => rfl
  | succ m =>
    rw [List.replicate_succ, (cutBefore_cons_self separator _).1]
    rfl

/-- With more slashes than an `int` counts, a registered key is asked of an empty list. -/
theorem slashes_undecided_key :
    (slashes (intMax + 1) intMax_succ_lt_npos).bytes.head? = some separator ∧
      ¬ dotDot <:+: (slashes (intMax + 1) intMax_succ_lt_npos).bytes ∧
      (∃ call ∈ thrice, call.1 = routeKey (slashes (intMax + 1) intMax_succ_lt_npos).bytes) ∧
      supportedOperation (registered thrice) (slashes (intMax + 1) intMax_succ_lt_npos) =
        .error .emptyFront := by
  have hneg := Int.le_of_lt narrowInt_intMax_succ
  have hkey := routeKey_slashes intMax_succ_lt_npos
  refine ⟨slashes_head _ (Nat.succ_pos _), slashes_confined _, ?_,
    slashes_undecided _ _ (Nat.succ_pos _) hneg⟩
  exact ⟨_, List.mem_cons_self, hkey.symm⟩

end PathRegistrations
