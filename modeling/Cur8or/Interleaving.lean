import Mathlib.Algebra.Ring.Nat
import Cur8or.TransitionSystem

/-! Interleaving of independent components: members of a family are instances of one system,
started one after another and taking their events in any order. Each runs as if it were alone. -/
namespace Interleaving

open TransitionSystem

variable {σ ε : Type*}

inductive Event (ε : Type*) where
  | start
  | act (i : ℕ) (e : ε)

def Enabled (S : System σ ε) (l : List σ) : Event ε → Prop
  | .start => True
  | .act i e => ∃ s, l[i]? = some s ∧ S.Enabled s e

def next (S : System σ ε) (l : List σ) : Event ε → List σ
  | .start => l ++ [S.initial]
  | .act i e => l.modify i (S.next · e)

def family (S : System σ ε) : System (List σ) (Event ε) where
  initial := []
  Enabled := Enabled S
  next := next S

/-- The events of one member, in order. -/
def eventsOf (i : ℕ) : List (Event ε) → List ε
  | [] => []
  | .start :: es => eventsOf i es
  | .act j e :: es => if j = i then e :: eventsOf i es else eventsOf i es

theorem eventsOf_append (i : ℕ) (es fs : List (Event ε)) :
    eventsOf i (es ++ fs) = eventsOf i es ++ eventsOf i fs := by
  induction es with
  | nil => rfl
  | cons e es ih =>
    cases e with
    | start => exact ih
    | act j e =>
      simp only [List.cons_append, eventsOf, ih]
      split <;> rfl

theorem eventsOf_start (i : ℕ) (es : List (Event ε)) :
    eventsOf i (es ++ [.start]) = eventsOf i es := by
  rw [eventsOf_append, eventsOf, eventsOf, List.append_nil]

theorem eventsOf_self (i : ℕ) (e : ε) (es : List (Event ε)) :
    eventsOf i (es ++ [.act i e]) = eventsOf i es ++ [e] := by
  rw [eventsOf_append, eventsOf, if_pos rfl, eventsOf]

theorem eventsOf_other {i j : ℕ} (h : j ≠ i) (e : ε) (es : List (Event ε)) :
    eventsOf i (es ++ [.act j e]) = eventsOf i es := by
  rw [eventsOf_append, eventsOf, if_neg h, eventsOf, List.append_nil]

theorem eventsOf_unstarted {S : System σ ε} {es : List (Event ε)} {l₀ l : List σ}
    (h : Execution (family S) l₀ es l) {i : ℕ} (hi : l.length ≤ i) : eventsOf i es = [] := by
  induction h with
  | refl => rfl
  | @tail es l e _ he ih =>
    cases e with
    | start =>
      rw [eventsOf_start]
      apply ih
      simp only [family, next, List.length_append] at hi
      omega
    | act j e =>
      obtain ⟨s, hs, _⟩ := he
      obtain ⟨hj, _⟩ := List.getElem?_eq_some_iff.mp hs
      simp only [family, next, List.length_modify] at hi
      rw [eventsOf_other (by omega), ih hi]

/-- What a member has become is the work of its own events alone. -/
theorem member_execution {S : System σ ε} {es : List (Event ε)} {l : List σ}
    (h : Execution (family S) [] es l) {i : ℕ} {s : σ} (hi : l[i]? = some s) :
    Execution S S.initial (eventsOf i es) s := by
  generalize hl : ([] : List σ) = l₀ at h
  induction h generalizing s with
  | refl =>
    subst hl
    cases hi
  | @tail es l e hx he ih =>
    cases e with
    | start =>
      change (l ++ [S.initial])[i]? = some s at hi
      rw [eventsOf_start]
      rcases Nat.lt_or_ge i l.length with hlt | hge
      · rw [List.getElem?_append_left hlt] at hi
        exact ih hi
      · rw [List.getElem?_append_right hge, List.getElem?_singleton] at hi
        split at hi
        · obtain rfl := Option.some.inj hi
          rw [eventsOf_unstarted hx hge]
          exact .refl _
        · cases hi
    | act j e =>
      obtain ⟨t, ht, het⟩ := he
      change (l.modify j (S.next · e))[i]? = some s at hi
      by_cases hj : j = i
      · subst hj
        rw [List.getElem?_modify_eq, ht] at hi
        obtain rfl := Option.some.inj hi
        rw [eventsOf_self]
        exact .tail (ih ht) het
      · rw [List.getElem?_modify_ne _ _ hj] at hi
        rw [eventsOf_other hj]
        exact ih hi

theorem member_reachable {S : System σ ε} {l : List σ} (h : Reachable (family S) l) {s : σ}
    (hs : s ∈ l) : Reachable S s := by
  obtain ⟨es, h⟩ := h
  obtain ⟨i, hi⟩ := List.mem_iff_getElem?.mp hs
  exact ⟨_, member_execution h hi⟩

theorem lockstep_modify {τ : Type*} {R : σ → τ → Prop} {f : σ → σ} {g : τ → τ}
    (hfg : ∀ a b, R a b → R (f a) (g b)) {l : List σ} {m : List τ} (h : List.Forall₂ R l m)
    (i : ℕ) : List.Forall₂ R (l.modify i f) (m.modify i g) := by
  induction h generalizing i with
  | nil => simp
  | cons hab hrest ih =>
    cases i with
    | zero => exact .cons (hfg _ _ hab) hrest
    | succ i => exact .cons hab (ih i)

theorem lockstep_getElem? {τ : Type*} {R : σ → τ → Prop} {l : List σ} {m : List τ}
    (h : List.Forall₂ R l m) {i : ℕ} {a : σ} (ha : l[i]? = some a) :
    ∃ b, m[i]? = some b ∧ R a b := by
  induction h generalizing i with
  | nil => cases ha
  | cons hab _ ih =>
    cases i with
    | zero =>
      obtain rfl := Option.some.inj ha
      exact ⟨_, rfl, hab⟩
    | succ i => exact ih ha

theorem sum_modify_lt (rank : σ → ℕ) (f : σ → σ) {l : List σ} {i : ℕ} {s : σ}
    (hi : l[i]? = some s) (hlt : rank s < rank (f s)) :
    (l.map rank).sum < ((l.modify i f).map rank).sum := by
  induction l generalizing i with
  | nil => cases hi
  | cons t l ih =>
    cases i with
    | zero =>
      obtain rfl := Option.some.inj hi
      simpa using hlt
    | succ i => simpa using ih hi

theorem sum_map_le (rank weight : σ → ℕ) {a b : ℕ} {l : List σ}
    (h : ∀ s ∈ l, rank s ≤ a * weight s + b) :
    (l.map rank).sum ≤ a * (l.map weight).sum + b * l.length := by
  induction l with
  | nil => exact Nat.zero_le _
  | cons s l ih =>
    have hs := h s (List.mem_cons_self ..)
    have hl := ih fun t ht => h t (List.mem_cons_of_mem s ht)
    simp only [List.map_cons, List.sum_cons, List.length_cons, Nat.mul_add, Nat.mul_one]
    omega

theorem countP_modify_le (kind : σ → Bool) (f : σ → σ) (l : List σ) (i : ℕ) :
    (l.modify i f).countP kind ≤ l.countP kind + 1 := by
  induction l generalizing i with
  | nil => simp
  | cons s l ih =>
    cases i with
    | zero =>
      rw [List.modify_zero_cons, List.countP_cons, List.countP_cons]
      split <;> split <;> omega
    | succ i =>
      have hle := ih i
      rw [List.modify_succ_cons, List.countP_cons, List.countP_cons]
      omega

theorem countP_modify_le_self {kind : σ → Bool} {f : σ → σ}
    (h : ∀ s, kind (f s) = true → kind s = true) (l : List σ) (i : ℕ) :
    (l.modify i f).countP kind ≤ l.countP kind := by
  induction l generalizing i with
  | nil => simp
  | cons s l ih =>
    cases i with
    | zero =>
      rw [List.modify_zero_cons, List.countP_cons, List.countP_cons]
      by_cases hf : kind (f s) = true
      · rw [if_pos hf, if_pos (h s hf)]
      · rw [if_neg hf]
        omega
    | succ i =>
      rw [List.modify_succ_cons, List.countP_cons, List.countP_cons]
      exact Nat.add_le_add_right (ih i) _

/-- A member of the one kind only is what the counts differ by. -/
theorem countP_lt {kind wider : σ → Bool} {l : List σ}
    (h : ∀ s ∈ l, kind s = true → wider s = true) {s : σ} (hs : s ∈ l) (hw : wider s = true)
    (hk : kind s = false) : l.countP kind < l.countP wider := by
  induction l with
  | nil => cases hs
  | cons t l ih =>
    have hl : ∀ s ∈ l, kind s = true → wider s = true := fun s hs => h s (List.mem_cons_of_mem _ hs)
    have hle := List.countP_mono_left hl
    rw [List.countP_cons, List.countP_cons]
    rcases List.mem_cons.mp hs with rfl | hs
    · rw [hk, hw, if_neg (by decide), if_pos rfl]
      omega
    · have hlt := ih hl hs
      have ht := h t List.mem_cons_self
      split
      · next hkt => rw [if_pos (ht hkt)]; omega
      · omega

end Interleaving
