import Mathlib.Data.List.Basic
import Mathlib.Data.List.Forall2

/-! Guarded transition systems with labelled events, their finite executions, inductive
invariants, and refinement of one system by another through an abstraction function. -/
namespace TransitionSystem

structure System (σ ε : Type*) where
  initial : σ
  Enabled : σ → ε → Prop
  next : σ → ε → σ

variable {σ τ ε δ : Type*}

inductive Execution (S : System σ ε) : σ → List ε → σ → Prop where
  | refl (s) : Execution S s [] s
  | tail {s es t e} : Execution S s es t → S.Enabled t e →
      Execution S s (es ++ [e]) (S.next t e)

def Reachable (S : System σ ε) (s : σ) : Prop := ∃ es, Execution S S.initial es s

theorem Execution.single {S : System σ ε} {s e} (h : S.Enabled s e) :
    Execution S s [e] (S.next s e) := .tail (.refl s) h

theorem Execution.trans {S : System σ ε} {s t u es fs} (h : Execution S s es t)
    (k : Execution S t fs u) : Execution S s (es ++ fs) u := by
  induction k with
  | refl => simpa using h
  | tail _ he ih =>
    rw [← List.append_assoc]
    exact .tail ih he

theorem Reachable.initial (S : System σ ε) : Reachable S S.initial := ⟨[], .refl _⟩

theorem Reachable.next {S : System σ ε} {s e} (h : Reachable S s) (he : S.Enabled s e) :
    Reachable S (S.next s e) := by
  obtain ⟨es, h⟩ := h
  exact ⟨es ++ [e], .tail h he⟩

theorem Reachable.trans {S : System σ ε} {s t es} (h : Reachable S s)
    (k : Execution S s es t) : Reachable S t := by
  obtain ⟨fs, h⟩ := h
  exact ⟨fs ++ es, h.trans k⟩

/-- A predicate that holds initially and that no enabled event breaks. -/
structure Inductive (S : System σ ε) (I : σ → Prop) : Prop where
  initial : I S.initial
  step : ∀ s e, I s → S.Enabled s e → I (S.next s e)

theorem Inductive.execution {S : System σ ε} {I : σ → Prop} (hI : Inductive S I) {s es t}
    (h : Execution S s es t) (hs : I s) : I t := by
  induction h with
  | refl => exact hs
  | tail _ he ih => exact hI.step _ _ ih he

theorem Inductive.reachable {S : System σ ε} {I : σ → Prop} (hI : Inductive S I) {s}
    (h : Reachable S s) : I s := by
  obtain ⟨es, h⟩ := h
  exact hI.execution h hI.initial

/-- What every event raises bounds the length of an execution. -/
theorem Inductive.length_le {S : System σ ε} {I : σ → Prop} (hI : Inductive S I) (rank : σ → ℕ)
    (raised : ∀ s e, I s → S.Enabled s e → rank s < rank (S.next s e)) {s es t}
    (h : Execution S s es t) (hs : I s) : rank s + es.length ≤ rank t := by
  induction h with
  | refl => exact Nat.le_refl _
  | tail h he ih =>
    have hlt := raised _ _ (hI.execution h hs) he
    rw [List.length_append, List.length_singleton]
    omega

theorem reachable_inductive (S : System σ ε) : Inductive S (Reachable S) :=
  ⟨.initial S, fun _ _ => .next⟩

/-- A rank that some event can lower as long as it is positive can be brought down to zero. -/
theorem Inductive.drains {S : System σ ε} {I : σ → Prop} (hI : Inductive S I) {P : ε → Prop}
    (rank : σ → ℕ) (lowered : ∀ s, I s → 0 < rank s →
      ∃ e, P e ∧ S.Enabled s e ∧ rank (S.next s e) < rank s) {s} (hs : I s) :
    ∃ es t, (∀ e ∈ es, P e) ∧ Execution S s es t ∧ rank t = 0 := by
  induction hn : rank s using Nat.strongRecOn generalizing s with
  | ind n ih =>
    subst hn
    by_cases hzero : rank s = 0
    · exact ⟨[], s, by simp, .refl s, hzero⟩
    · obtain ⟨e, hp, he, hlt⟩ := lowered s hs (Nat.pos_of_ne_zero hzero)
      obtain ⟨es, t, hes, hx, ht⟩ := ih _ hlt (hI.step s e hs he) rfl
      refine ⟨[e] ++ es, t, ?_, (Execution.single he).trans hx, ht⟩
      intro d hd
      rcases List.mem_append.mp hd with hd | hd
      · obtain rfl := List.mem_singleton.mp hd
        exact hp
      · exact hes d hd

/-- A state without enabled events ends every execution. -/
theorem Execution.eq_of_stuck {S : System σ ε} {s es t} (h : Execution S s es t)
    (hs : ∀ e, ¬ S.Enabled s e) : es = [] ∧ t = s := by
  induction h with
  | refl => exact ⟨rfl, rfl⟩
  | @tail es t e _ he ih =>
    obtain ⟨_, rfl⟩ := ih
    exact absurd he (hs e)

/-- The runs all of whose steps meet a condition on the state before them. -/
def System.restrict (S : System σ ε) (P : σ → ε → Prop) : System σ ε :=
  { S with Enabled := fun s e => S.Enabled s e ∧ P s e }

theorem Execution.of_restrict {S : System σ ε} {P : σ → ε → Prop} {s es t}
    (h : Execution (S.restrict P) s es t) : Execution S s es t := by
  induction h with
  | refl => exact .refl _
  | tail _ he ih => exact .tail ih he.1

def runTrace (S : System σ ε) (s : σ) : List ε → σ
  | [] => s
  | e :: es => runTrace S (S.next s e) es

def ValidTrace (S : System σ ε) (s : σ) : List ε → Prop
  | [] => True
  | e :: es => S.Enabled s e ∧ ValidTrace S (S.next s e) es

instance (S : System σ ε) [∀ s e, Decidable (S.Enabled s e)] (s : σ) (es : List ε) :
    Decidable (ValidTrace S s es) := by
  induction es generalizing s with
  | nil => exact isTrue trivial
  | cons e es ih => exact instDecidableAnd

theorem valid_trace_execution {S : System σ ε} {s es} (h : ValidTrace S s es) :
    Execution S s es (runTrace S s es) := by
  induction es generalizing s with
  | nil => exact .refl s
  | cons e es ih =>
    exact (Execution.single h.1).trans (ih h.2)

theorem valid_trace_reachable {S : System σ ε} {es} (h : ValidTrace S S.initial es) :
    Reachable S (runTrace S S.initial es) := ⟨es, valid_trace_execution h⟩

theorem ValidTrace.lockstep {S : System σ ε} {T : System τ δ} {R : σ → τ → Prop}
    {Q : ε → δ → Prop}
    (step : ∀ s t e d, R s t → Q e d → S.Enabled s e →
      T.Enabled t d ∧ R (S.next s e) (T.next t d))
    {s t es ds} (hs : R s t) (he : List.Forall₂ Q es ds) (hv : ValidTrace S s es) :
    ValidTrace T t ds ∧ R (runTrace S s es) (runTrace T t ds) := by
  induction he generalizing s t with
  | nil => exact ⟨trivial, hs⟩
  | cons hq _ ih =>
    obtain ⟨henabled, hnext⟩ := step _ _ _ _ hs hq hv.1
    obtain ⟨hvalid, hrun⟩ := ih hnext hv.2
    exact ⟨⟨henabled, hvalid⟩, hrun⟩

/-- Under the invariant `I`, every event of `S` is the listed events of `T`
on the abstracted state. -/
structure Refinement (S : System σ ε) (T : System τ δ) (I : σ → Prop) (view : σ → τ)
    (events : σ → ε → List δ) : Prop where
  invariant : Inductive S I
  initial : view S.initial = T.initial
  step : ∀ s e, I s → S.Enabled s e →
    Execution T (view s) (events s e) (view (S.next s e))

theorem Refinement.execution {S : System σ ε} {T : System τ δ} {I view events}
    (hr : Refinement S T I view events) {s es t} (h : Execution S s es t) (hs : I s) :
    ∃ fs, Execution T (view s) fs (view t) := by
  induction h with
  | refl => exact ⟨[], .refl _⟩
  | tail h he ih =>
    obtain ⟨fs, hf⟩ := ih
    exact ⟨_, hf.trans (hr.step _ _ (hr.invariant.execution h hs) he)⟩

/-- Abstract reachability, hence every abstract invariant, carries over. -/
theorem Refinement.reachable {S : System σ ε} {T : System τ δ} {I view events}
    (hr : Refinement S T I view events) {s} (h : Reachable S s) : Reachable T (view s) := by
  obtain ⟨es, h⟩ := h
  obtain ⟨fs, hf⟩ := hr.execution h hr.invariant.initial
  exact ⟨fs, hr.initial ▸ hf⟩

end TransitionSystem
