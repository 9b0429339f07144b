import Cur8or.TransitionSystem
import Mathlib.Data.List.Basic

/-! The accepting end of the server: the acceptor's set-up calls, and the callback loop that
hands each new socket to the connection handler. `κ` is the type of sockets, `ι` of error codes. -/
namespace SocketListener

open TransitionSystem

inductive SetupCall where
  | «open» | setOption | bind | listen
  deriving DecidableEq, Repr

def setupCalls : List SetupCall := [.open, .setOption, .bind, .listen]

/-- The constructor returns at the first call that reports an error. -/
def construct (succeeds : SetupCall → Bool) : List SetupCall → List SetupCall × Bool
  | [] => ([], true)
  | call :: rest =>
    if succeeds call then (call :: (construct succeeds rest).1, (construct succeeds rest).2)
    else ([call], false)

/-- `handles` counts the shared pointers outside the loop; every accept in flight holds one more.
The fields from `calls` on are histories. -/
structure State (κ ι : Type*) where
  listening : Bool
  handles : ℕ
  accepts : ℕ
  calls : ℕ
  completed : List (Except ι κ)
  handled : List κ

variable {κ ι : Type*}

/-- `make_shared<SocketListener>` -/
def create (succeeds : SetupCall → Bool) : State κ ι :=
  ⟨(construct succeeds setupCalls).2, 1, 0, 0, [], []⟩

def acceptUpcoming (s : State κ ι) : State κ ι := { s with accepts := s.accepts + 1 }

def runHandlerOnSocket (s : State κ ι) : Except ι κ → State κ ι
  | .error _ => s
  | .ok socket => acceptUpcoming { s with handled := s.handled ++ [socket] }

inductive Event (κ ι : Type*) where
  | acceptUpcoming
  | release
  | acceptDone (result : Except ι κ)

/-- An acceptor that does not listen completes every accept with an error. -/
def Enabled (s : State κ ι) : Event κ ι → Prop
  | .acceptUpcoming => 0 < s.handles
  | .release => 0 < s.handles
  | .acceptDone (.ok _) => 0 < s.accepts ∧ s.listening = true
  | .acceptDone (.error _) => 0 < s.accepts

instance (s : State κ ι) : (e : Event κ ι) → Decidable (Enabled s e)
  | .acceptUpcoming => inferInstanceAs (Decidable (0 < s.handles))
  | .release => inferInstanceAs (Decidable (0 < s.handles))
  | .acceptDone (.ok _) => inferInstanceAs (Decidable (0 < s.accepts ∧ s.listening = true))
  | .acceptDone (.error _) => inferInstanceAs (Decidable (0 < s.accepts))

def next (s : State κ ι) : Event κ ι → State κ ι
  | .acceptUpcoming => acceptUpcoming { s with calls := s.calls + 1 }
  | .release => { s with handles := s.handles - 1 }
  | .acceptDone result =>
    runHandlerOnSocket
      { s with accepts := s.accepts - 1, completed := s.completed ++ [result] } result

def listener (succeeds : SetupCall → Bool) : System (State κ ι) (Event κ ι) where
  initial := create succeeds
  Enabled := Enabled
  next := next

instance (succeeds : SetupCall → Bool) (s : State κ ι) (e : Event κ ι) :
    Decidable ((listener succeeds).Enabled s e) := inferInstanceAs (Decidable (Enabled s e))

theorem construct_calls (succeeds : SetupCall → Bool) (calls : List SetupCall) :
    (construct succeeds calls).1 =
      calls.takeWhile succeeds ++ (calls.dropWhile succeeds).head?.toList := by
  induction calls with
  | nil => rfl
  | cons call rest ih =>
    rw [construct]
    cases h : succeeds call with
    | true => simpa [h] using ih
    | false => simp [h]

theorem construct_listening {succeeds : SetupCall → Bool} {calls : List SetupCall} :
    (construct succeeds calls).2 = true ↔ ∀ call ∈ calls, succeeds call = true := by
  induction calls with
  | nil => simp [construct]
  | cons call rest ih =>
    rw [construct]
    cases h : succeeds call with
    | true => simpa [h] using ih
    | false => simp [h]

def sockets : List (Except ι κ) → List κ
  | [] => []
  | .ok socket :: rest => socket :: sockets rest
  | .error _ :: rest => sockets rest

def failures : List (Except ι κ) → List ι
  | [] => []
  | .ok _ :: rest => failures rest
  | .error e :: rest => e :: failures rest

theorem sockets_append (a b : List (Except ι κ)) : sockets (a ++ b) = sockets a ++ sockets b := by
  induction a with
  | nil => rfl
  | cons result rest ih =>
    cases result with
    | ok socket => exact congrArg (socket :: ·) ih
    | error e => exact ih

theorem failures_append (a b : List (Except ι κ)) :
    failures (a ++ b) = failures a ++ failures b := by
  induction a with
  | nil => rfl
  | cons result rest ih =>
    cases result with
    | ok socket => exact ih
    | error e => exact congrArg (e :: ·) ih

structure Invariant (succeeds : SetupCall → Bool) (s : State κ ι) : Prop where
  listening : s.listening = (construct succeeds setupCalls).2
  loops : s.accepts + (failures s.completed).length = s.calls
  handled : s.handled = sockets s.completed
  deaf : s.listening = false → s.handled = []
  last : s.calls ≤ 1 → s.completed = s.handled.map .ok ++ (failures s.completed).map .error

variable {succeeds : SetupCall → Bool} {s : State κ ι}

theorem acceptDone_invariant (h : Invariant succeeds s) {result : Except ι κ}
    (he : Enabled s (.acceptDone result)) : Invariant succeeds (next s (.acceptDone result)) := by
  have hloops := h.loops
  cases result with
  | ok socket =>
    obtain ⟨hpos, hlistening⟩ := he
    refine ⟨h.listening, ?_, ?_, ?_, ?_⟩
    · simp only [next, runHandlerOnSocket, acceptUpcoming, failures_append, failures,
        List.append_nil]
      omega
    · simp only [next, runHandlerOnSocket, acceptUpcoming, sockets_append, sockets, h.handled]
    · intro hdeaf
      exact absurd (hlistening.symm.trans hdeaf) (by decide)
    · intro hcalls
      have hcalls : s.calls ≤ 1 := hcalls
      have hnone : failures s.completed = [] := List.eq_nil_of_length_eq_zero (by omega)
      have hlast := h.last hcalls
      rw [hnone, List.map_nil, List.append_nil] at hlast
      simp only [next, runHandlerOnSocket, acceptUpcoming, failures_append, hnone, failures,
        List.append_nil, List.map_nil, List.map_append, List.map_cons]
      rw [← hlast]
  | error e =>
    have hpos : 0 < s.accepts := he
    refine ⟨h.listening, ?_, ?_, h.deaf, ?_⟩
    · simp only [next, runHandlerOnSocket, failures_append, failures, List.length_append,
        List.length_cons, List.length_nil]
      omega
    · simp only [next, runHandlerOnSocket, sockets_append, sockets, h.handled, List.append_nil]
    · intro hcalls
      have hcalls : s.calls ≤ 1 := hcalls
      have hnone : failures s.completed = [] := List.eq_nil_of_length_eq_zero (by omega)
      have hlast := h.last hcalls
      rw [hnone, List.map_nil, List.append_nil] at hlast
      simp only [next, runHandlerOnSocket, failures_append, hnone, failures, List.nil_append,
        List.map_cons, List.map_nil]
      rw [← hlast]

theorem invariant_inductive :
    Inductive (listener (κ := κ) (ι := ι) succeeds) (Invariant succeeds) where
  initial := ⟨rfl, rfl, rfl, fun _ => rfl, fun _ => rfl⟩
  step := by
    intro s e h he
    cases e with
    | acceptUpcoming =>
      have hloops := h.loops
      refine ⟨h.listening, ?_, h.handled, h.deaf, fun hc => h.last (Nat.le_of_succ_le hc)⟩
      simp only [listener, next, acceptUpcoming]
      omega
    | release => exact ⟨h.listening, h.loops, h.handled, h.deaf, h.last⟩
    | acceptDone result => exact acceptDone_invariant h he

theorem reachable_invariant (h : Reachable (listener succeeds) s) : Invariant succeeds s :=
  invariant_inductive.reachable h

def State.destroyed (s : State κ ι) : Prop := s.handles = 0 ∧ s.accepts = 0

/-- What the owner of a listener can rely on. -/
structure AcceptLoop (succeeds : SetupCall → Bool) (s : State κ ι) : Prop where
  setup : s.listening = true ↔ ∀ call, succeeds call = true
  handled : s.handled = sockets s.completed
  deaf : (∃ call, succeeds call = false) → s.handled = []
  loops : s.accepts + (failures s.completed).length = s.calls
  single : s.calls ≤ 1 → ∃ errors : List ι, s.completed = s.handled.map .ok ++ errors.map .error ∧
    errors.length = s.calls - s.accepts
  destroyed : s.destroyed → ∀ e, ¬ Enabled s e

theorem mem_setupCalls (call : SetupCall) : call ∈ setupCalls := by
  cases call <;> decide

/-- Each loop started from outside ends with its first error; until then every socket goes to
the handler once, in the order of the completions. -/
theorem accept_loop (h : Reachable (listener succeeds) s) : AcceptLoop succeeds s := by
  have hi := reachable_invariant h
  have hloops := hi.loops
  have hsetup : s.listening = true ↔ ∀ call, succeeds call = true := by
    rw [hi.listening, construct_listening]
    exact ⟨fun h call => h call (mem_setupCalls call), fun h call _ => h call⟩
  refine ⟨hsetup, hi.handled, ?_, hloops, ?_, ?_⟩
  · rintro ⟨call, hfails⟩
    apply hi.deaf
    by_contra hl
    have hall := hsetup.mp (Bool.of_not_eq_false hl) call
    exact absurd (hall.symm.trans hfails) (by decide)
  · intro hcalls
    exact ⟨_, hi.last hcalls, by omega⟩
  · rintro ⟨hhandles, haccepts⟩ e he
    cases e with
    | acceptUpcoming | release => exact absurd he (by simp [Enabled, hhandles])
    | acceptDone result => cases result <;> exact absurd he (by simp [Enabled, haccepts])

theorem accept_loop_ended :
    AcceptLoop (fun _ => true) (runTrace (listener fun _ => true) (create fun _ => true)
      [.acceptUpcoming, .release, .acceptDone (.ok 'a'), .acceptDone (.ok 'b'),
        .acceptDone (.error 24)]) :=
  accept_loop (valid_trace_reachable (by decide))

end SocketListener
