import Cur8or.TransitionSystem
import Mathlib.Data.Multiset.AddSub

/-! A service that answers each of its calls in one step, in any order and in the world of that
step: what an implementation that works on several calls at once is compared with. -/
namespace AtomicService

open TransitionSystem

variable {ω α β : Type*} [DecidableEq α]

structure Answer (ω α β : Type*) where
  world : ω
  call : α
  result : β

/-- `called` is a history. -/
structure State (ω α β : Type*) where
  pending : Multiset α
  called : Multiset α
  done : List (Answer ω α β)

inductive Event (ω α : Type*) where
  | call (a : α)
  | answer (w : ω) (a : α)

def Enabled (s : State ω α β) : Event ω α → Prop
  | .call _ => True
  | .answer _ a => a ∈ s.pending

def next (f : ω → α → β) (s : State ω α β) : Event ω α → State ω α β
  | .call a => { s with pending := s.pending + {a}, called := s.called + {a} }
  | .answer w a => { s with pending := s.pending.erase a, done := s.done ++ [⟨w, a, f w a⟩] }

def service (f : ω → α → β) : System (State ω α β) (Event ω α) where
  initial := ⟨0, 0, []⟩
  Enabled := Enabled
  next := next f

/-- Every call is answered once, by its own answer, or still pending. -/
structure Invariant (f : ω → α → β) (s : State ω α β) : Prop where
  answered : ∀ d ∈ s.done, d.result = f d.world d.call
  conserved : (s.done.map Answer.call : Multiset α) + s.pending = s.called

theorem invariant_inductive (f : ω → α → β) : Inductive (service f) (Invariant f) where
  initial := ⟨by simp [service], by simp [service]⟩
  step := by
    intro s e h he
    cases e with
    | call a =>
      refine ⟨h.answered, ?_⟩
      change (s.done.map Answer.call : Multiset α) + (s.pending + {a}) = s.called + {a}
      rw [← h.conserved, Multiset.add_assoc]
    | answer w a =>
      constructor
      · intro d hd
        rcases List.mem_append.mp hd with hd | hd
        · exact h.answered d hd
        · obtain rfl := List.mem_singleton.mp hd
          rfl
      · have ha : a ∈ s.pending := he
        change ((s.done ++ [(⟨w, a, f w a⟩ : Answer ω α β)]).map Answer.call : Multiset α) +
          s.pending.erase a = s.called
        rw [← h.conserved, List.map_append, ← Multiset.coe_add, Multiset.add_assoc]
        change _ + ({a} + s.pending.erase a) = _
        rw [Multiset.singleton_add, Multiset.cons_erase ha]

theorem reachable_invariant {f : ω → α → β} {s : State ω α β} (h : Reachable (service f) s) :
    Invariant f s := (invariant_inductive f).reachable h

theorem coe_eraseIdx {α : Type*} {l : List α} {i : ℕ} {a : α} (h : l[i]? = some a) :
    (l.eraseIdx i : Multiset α) + {a} = l := by
  obtain ⟨hi, rfl⟩ := List.getElem?_eq_some_iff.mp h
  rw [Multiset.add_comm, Multiset.singleton_add, Multiset.cons_coe, Multiset.coe_eq_coe]
  exact List.getElem_cons_eraseIdx_perm hi

theorem call_answer (f : ω → α → β) (s : State ω α β) (w : ω) (a : α) :
    Execution (service f) s [.call a, .answer w a]
      { s with called := s.called + {a}, done := s.done ++ [⟨w, a, f w a⟩] } := by
  have hcall : Execution (service f) s [.call a] _ := Execution.single (S := service f) trivial
  have hmem : a ∈ ((service f).next s (.call a)).pending :=
    Multiset.mem_add.mpr (Or.inr (Multiset.mem_singleton_self a))
  have hanswer := Execution.tail hcall (S := service f) (e := .answer w a) hmem
  have herase : (s.pending + {a}).erase a = s.pending := by
    rw [Multiset.add_comm, Multiset.singleton_add, Multiset.erase_cons_head]
  simpa only [service, next, herase, List.singleton_append] using hanswer

end AtomicService
