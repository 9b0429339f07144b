import Cur8or.TransitionSystem
import Mathlib.Data.List.Perm.Basic

/-! The callback loop of one HTTP session. Asynchronous operations in flight and response
callbacks handed to the loader are explicit; any of them may complete at any time, and a
loader may answer inside its call. Messages and responses are left abstract. -/
namespace SimpleSession

open TransitionSystem

/-- The handler bound to an `async_write`: the request answered and the keep_alive it carries. -/
structure PendingWrite where
  request : ℕ
  keepAlive : Bool
  deriving DecidableEq, Repr

inductive ReadResult (μ : Type*) where
  | received (m : μ)
  | endOfStream
  | failed

inductive Operation where
  | read
  | write (request : ℕ)
  deriving DecidableEq, Repr

/-- `request` is what `request_` holds, one entry per message parsed into it. The fields from
`arrived` on are histories; no function of the session reads them, apart from numbering
a callback by the requests handed over before it. -/
structure State (μ ρ : Type*) where
  dispatched : ℕ
  reads : ℕ
  writes : List PendingWrite
  callbacks : List ℕ
  request : List μ
  arrived : List μ
  handed : List (List μ)
  answers : List (ℕ × ρ)
  started : List Operation
  shutdown : Bool
  failed : Bool

variable {μ ρ : Type*}

def fresh : State μ ρ := ⟨0, 0, [], [], [], [], [], [], [], false, false⟩

def startSession (s : State μ ρ) : State μ ρ := { s with dispatched := s.dispatched + 1 }

def readStream (s : State μ ρ) : State μ ρ :=
  { s with
    request := []
    reads := s.reads + 1
    started := s.started ++ [.read] }

def endSession (s : State μ ρ) : State μ ρ := { s with shutdown := true }

def sendResponse (keepAlive : ρ → Bool) (s : State μ ρ) (k : ℕ) (r : ρ) : State μ ρ :=
  { s with
    callbacks := s.callbacks.erase k
    writes := ⟨k, keepAlive r⟩ :: s.writes
    answers := s.answers ++ [(k, r)]
    started := s.started ++ [.write k] }

/-- The loader owns what it is handed; `residue` is whatever it leaves in `request_`. -/
def handOver (s : State μ ρ) (m : μ) (residue : List μ) : State μ ρ :=
  { s with
    callbacks := s.handed.length :: s.callbacks
    request := residue
    arrived := s.arrived ++ [m]
    handed := s.handed ++ [s.request ++ [m]] }

def processRequest (keepAlive : ρ → Bool) (s : State μ ρ) (result : ReadResult μ)
    (residue : List μ) (reply : Option ρ) : State μ ρ :=
  match result with
  | .endOfStream => endSession s
  | .failed => { s with failed := true }
  | .received m =>
    match reply with
    | none => handOver s m residue
    | some r => sendResponse keepAlive (handOver s m residue) s.handed.length r

def responseStatus (s : State μ ρ) (keepAlive ok : Bool) : State μ ρ :=
  if ok = false then { s with failed := true }
  else if keepAlive then readStream s
  else endSession s

inductive Event (μ ρ : Type*) where
  | dispatch
  | readDone (result : ReadResult μ) (residue : List μ) (reply : Option ρ)
  | respond (k : ℕ) (r : ρ)
  | writeDone (w : PendingWrite) (ok : Bool)

def Enabled (s : State μ ρ) : Event μ ρ → Prop
  | .dispatch => 0 < s.dispatched
  | .readDone _ _ _ => 0 < s.reads
  | .respond k _ => k ∈ s.callbacks
  | .writeDone w _ => w ∈ s.writes

instance (s : State μ ρ) (e : Event μ ρ) : Decidable (Enabled s e) := by
  cases e <;> simp only [Enabled] <;> infer_instance

def next (keepAlive : ρ → Bool) (s : State μ ρ) : Event μ ρ → State μ ρ
  | .dispatch => readStream { s with dispatched := s.dispatched - 1 }
  | .readDone result residue reply =>
    processRequest keepAlive { s with reads := s.reads - 1 } result residue reply
  | .respond k r => sendResponse keepAlive s k r
  | .writeDone w ok => responseStatus { s with writes := s.writes.erase w } w.keepAlive ok

def session (keepAlive : ρ → Bool) : System (State μ ρ) (Event μ ρ) where
  initial := startSession fresh
  Enabled := Enabled
  next := next keepAlive

instance (keepAlive : ρ → Bool) (s : State μ ρ) (e : Event μ ρ) :
    Decidable ((session keepAlive).Enabled s e) :=
  inferInstanceAs (Decidable (Enabled s e))

def State.closed (s : State μ ρ) : Bool := s.shutdown || s.failed

/-- The one permit to act: it is always in exactly one place. -/
def tokens (s : State μ ρ) : ℕ :=
  s.dispatched + s.reads + s.writes.length + s.callbacks.length + s.closed.toNat

structure Invariant (keepAlive : ρ → Bool) (s : State μ ρ) : Prop where
  token : tokens s = 1
  clean : 0 < s.reads → s.request = []
  handed : s.handed = s.arrived.map (fun m => [m])
  paired : s.answers.length + s.callbacks.length = s.arrived.length
  fresh : ∀ k ∈ s.callbacks, k = s.answers.length
  ordered : s.answers.map Prod.fst = List.range s.answers.length
  bound : ∀ w ∈ s.writes, ∃ r, (w.request, r) ∈ s.answers ∧ keepAlive r = w.keepAlive
  unstarted : 0 < s.dispatched → s.arrived = []

variable {keepAlive : ρ → Bool} {s : State μ ρ}

theorem initial_invariant : Invariant keepAlive (startSession (fresh : State μ ρ)) := by
  constructor <;> simp [startSession, SimpleSession.fresh, tokens, State.closed]

theorem dispatch_invariant (h : Invariant keepAlive s) (he : 0 < s.dispatched) :
    Invariant keepAlive (next keepAlive s .dispatch) := by
  have ht := h.token
  refine ⟨?_, fun _ => rfl, h.handed, h.paired, h.fresh, h.ordered, h.bound,
    fun _ => h.unstarted he⟩
  simp only [tokens, next, readStream, State.closed] at *
  omega

theorem open_of_operation (ht : tokens s = 1)
    (ho : 0 < s.dispatched + s.reads + s.writes.length + s.callbacks.length) :
    s.shutdown = false ∧ s.failed = false := by
  apply Bool.or_eq_false_iff.mp
  cases hc : s.shutdown || s.failed with
  | false => rfl
  | true =>
    simp only [tokens, State.closed, hc, Bool.toNat_true] at ht
    omega

theorem handOver_invariant (h : Invariant keepAlive s) (he : 0 < s.reads) (m : μ)
    (residue : List μ) :
    Invariant keepAlive (handOver { s with reads := s.reads - 1 } m residue) := by
  have ht := h.token
  have hc : s.callbacks = [] := by
    apply List.eq_nil_of_length_eq_zero
    simp only [tokens] at ht
    omega
  have hp := h.paired
  have hl : s.handed.length = s.answers.length := by
    rw [h.handed, List.length_map, ← hp, hc]
    rfl
  constructor
  · simp only [tokens, handOver, State.closed, List.length_cons] at *
    omega
  · intro hr
    simp only [tokens, handOver] at ht hr
    omega
  · simp [handOver, h.handed, h.clean he]
  · simp only [handOver, hc, List.length_cons, List.length_append, List.length_nil] at *
    omega
  · intro k hk
    simp only [handOver, hc, List.mem_singleton] at hk
    exact hk.trans hl
  · exact h.ordered
  · exact h.bound
  · intro hd
    simp only [tokens, handOver] at ht hd
    omega

theorem sendResponse_invariant (h : Invariant keepAlive s) {k : ℕ} (hk : k ∈ s.callbacks) (r : ρ) :
    Invariant keepAlive (sendResponse keepAlive s k r) := by
  have ht := h.token
  have hl := List.length_erase_of_mem hk
  have hpos := List.length_pos_of_mem hk
  have hw : s.writes = [] := by
    apply List.eq_nil_of_length_eq_zero
    simp only [tokens] at ht
    omega
  have he : s.callbacks.erase k = [] := by
    apply List.eq_nil_of_length_eq_zero
    simp only [tokens] at ht
    omega
  constructor
  · simp only [tokens, sendResponse, State.closed, List.length_cons] at *
    omega
  · exact h.clean
  · exact h.handed
  · have hp := h.paired
    simp only [sendResponse, List.length_append, List.length_cons, List.length_nil] at *
    omega
  · intro j hj
    simp [sendResponse, he] at hj
  · simp only [sendResponse, List.map_append, List.map_cons, List.map_nil, List.length_append,
      List.length_cons, List.length_nil, h.ordered, List.range_succ, h.fresh k hk]
  · intro w hm
    obtain rfl : w = ⟨k, keepAlive r⟩ := by simpa [sendResponse, hw] using hm
    exact ⟨r, by simp [sendResponse], rfl⟩
  · exact h.unstarted

theorem readDone_invariant (h : Invariant keepAlive s) (he : 0 < s.reads) (result : ReadResult μ)
    (residue : List μ) (reply : Option ρ) :
    Invariant keepAlive (next keepAlive s (.readDone result residue reply)) := by
  have ht := h.token
  obtain ⟨hs, hf⟩ := open_of_operation ht (by omega)
  cases result with
  | received m =>
    have hh := handOver_invariant h he m residue
    cases reply with
    | none => exact hh
    | some r => exact sendResponse_invariant hh (by simp [handOver]) r
  | endOfStream =>
    refine ⟨?_, ?_, h.handed, h.paired, h.fresh, h.ordered, h.bound, h.unstarted⟩
    · simp only [tokens, next, processRequest, endSession, State.closed, hs, hf, Bool.or_false,
        Bool.toNat_true, Bool.toNat_false] at *
      omega
    · intro hr
      simp only [tokens, next, processRequest, endSession] at ht hr
      omega
  | failed =>
    refine ⟨?_, ?_, h.handed, h.paired, h.fresh, h.ordered, h.bound, h.unstarted⟩
    · simp only [tokens, next, processRequest, State.closed, hs, hf, Bool.or_false,
        Bool.or_true, Bool.toNat_true, Bool.toNat_false] at *
      omega
    · intro hr
      simp only [tokens, next, processRequest] at ht hr
      omega

theorem writeDone_invariant (h : Invariant keepAlive s) {w : PendingWrite} (hw : w ∈ s.writes)
    (ok : Bool) : Invariant keepAlive (next keepAlive s (.writeDone w ok)) := by
  have ht := h.token
  have hl := List.length_erase_of_mem hw
  have hpos := List.length_pos_of_mem hw
  obtain ⟨hs, hf⟩ := open_of_operation ht (by omega)
  have hbound : ∀ v ∈ s.writes.erase w, ∃ r, (v.request, r) ∈ s.answers ∧
      keepAlive r = v.keepAlive := fun v hv => h.bound v (List.mem_of_mem_erase hv)
  simp only [next, responseStatus]
  split
  · refine ⟨?_, ?_, h.handed, h.paired, h.fresh, h.ordered, hbound, h.unstarted⟩
    · simp only [tokens, State.closed, hs, hf, Bool.or_false,
        Bool.or_true, Bool.toNat_true, Bool.toNat_false] at *
      omega
    · exact h.clean
  split
  · refine ⟨?_, fun _ => rfl, h.handed, h.paired, h.fresh, h.ordered, hbound, h.unstarted⟩
    simp only [tokens, readStream, State.closed] at *
    omega
  · refine ⟨?_, h.clean, h.handed, h.paired, h.fresh, h.ordered, hbound, h.unstarted⟩
    simp only [tokens, endSession, State.closed, hs, hf, Bool.or_false, Bool.toNat_true,
      Bool.toNat_false] at *
    omega

theorem invariant_inductive : Inductive (session (μ := μ) keepAlive) (Invariant keepAlive) where
  initial := initial_invariant
  step := by
    intro s e h he
    cases e with
    | dispatch => exact dispatch_invariant h he
    | readDone result residue reply => exact readDone_invariant h he result residue reply
    | respond k r => exact sendResponse_invariant h he r
    | writeDone w ok => exact writeDone_invariant h he ok

theorem reachable_invariant (h : Reachable (session keepAlive) s) : Invariant keepAlive s :=
  invariant_inductive.reachable h

/-- What the peer and the loader can rely on in a state of a session. -/
structure HalfDuplex (keepAlive : ρ → Bool) (s : State μ ρ) : Prop where
  exclusive : s.reads + s.writes.length + s.callbacks.length ≤ 1
  ordered : s.answers.map Prod.fst = List.range s.answers.length ∧
    s.answers.length ≤ s.arrived.length
  handed : s.handed = s.arrived.map (fun m => [m])
  renewed : ∀ w ok, Enabled s (.writeDone w ok) → ∃ r, (w.request, r) ∈ s.answers ∧
    (next keepAlive s (.writeDone w ok)).started =
      s.started ++ (if ok = true ∧ keepAlive r = true then [.read] else [])
  reading : ∀ e, Enabled s e → (next keepAlive s e).started = s.started ++ [.read] →
    (e = .dispatch ∧ s.answers = []) ∨ ∃ w, e = .writeDone w true
  ended : s.closed = true → ∀ es t, Execution (session keepAlive) s es t → t.started = s.started

theorem renewed_read (h : Invariant keepAlive s) {w : PendingWrite} (hw : w ∈ s.writes)
    (ok : Bool) : ∃ r, (w.request, r) ∈ s.answers ∧
      (next keepAlive s (.writeDone w ok)).started =
        s.started ++ (if ok = true ∧ keepAlive r = true then [.read] else []) := by
  obtain ⟨r, hr, hk⟩ := h.bound w hw
  refine ⟨r, hr, ?_⟩
  rw [hk]
  cases ok <;> cases hkeep : w.keepAlive <;>
    simp [next, responseStatus, readStream, endSession, hkeep]

theorem read_origin (h : Invariant keepAlive s) {e : Event μ ρ} (he : Enabled s e)
    (hr : (next keepAlive s e).started = s.started ++ [.read]) :
    (e = .dispatch ∧ s.answers = []) ∨ ∃ w, e = .writeDone w true := by
  cases e with
  | dispatch =>
    have hp := h.paired
    rw [h.unstarted he, List.length_nil] at hp
    exact Or.inl ⟨rfl, List.eq_nil_of_length_eq_zero (by omega)⟩
  | readDone result residue reply =>
    cases result <;> cases reply <;>
      simp [next, processRequest, handOver, sendResponse, endSession] at hr
  | respond k r => simp [next, sendResponse] at hr
  | writeDone w ok =>
    cases ok with
    | true => exact Or.inr ⟨w, rfl⟩
    | false => simp [next, responseStatus] at hr

theorem stuck_of_closed (h : Invariant keepAlive s) (hc : s.closed = true) (e : Event μ ρ) :
    ¬ Enabled s e := by
  have ht := h.token
  simp only [tokens, hc, Bool.toNat_true] at ht
  intro he
  cases e with
  | dispatch =>
    have hd : 0 < s.dispatched := he
    omega
  | readDone result residue reply =>
    have hr : 0 < s.reads := he
    omega
  | respond k r =>
    have hk := List.length_pos_of_mem he
    omega
  | writeDone w ok =>
    have hw := List.length_pos_of_mem he
    omega

/-- Reads and writes of one session never overlap, answers follow the requests, and nothing
starts after the end, whatever the peer and the loader do. -/
theorem session_half_duplex (h : Reachable (session keepAlive) s) : HalfDuplex keepAlive s := by
  have hi := reachable_invariant h
  constructor
  · have ht := hi.token
    simp only [tokens] at ht
    omega
  · have hp := hi.paired
    exact ⟨hi.ordered, by omega⟩
  · exact hi.handed
  · intro w ok hw
    exact renewed_read hi hw ok
  · intro e he hr
    exact read_origin hi he hr
  · intro hc es t hx
    obtain ⟨_, rfl⟩ := hx.eq_of_stuck (fun e => stuck_of_closed hi hc e)
    rfl

theorem session_half_duplex_pipelined :
    HalfDuplex id (runTrace (session id) (session id).initial
      [.dispatch, .readDone (.received 'a') ['x'] (some true), .writeDone ⟨0, true⟩ true,
        .readDone (.received 'b') [] none, .respond 1 false]) :=
  session_half_duplex (valid_trace_reachable (by decide))

inductive Phase where
  | starting | reading | answering | writing | closed
  deriving DecidableEq, Repr

structure Channel where
  phase : Phase
  received : ℕ
  answered : ℕ
  deriving DecidableEq, Repr

inductive Signal where
  | start | request | answer | renew | close
  deriving DecidableEq, Repr

def Channel.Enabled (c : Channel) : Signal → Prop
  | .start => c.phase = .starting
  | .request => c.phase = .reading
  | .answer => c.phase = .answering
  | .renew => c.phase = .writing
  | .close => c.phase = .reading ∨ c.phase = .writing

def Channel.next (c : Channel) : Signal → Channel
  | .start => { c with phase := .reading }
  | .request => { c with phase := .answering, received := c.received + 1 }
  | .answer => { c with phase := .writing, answered := c.answered + 1 }
  | .renew => { c with phase := .reading }
  | .close => { c with phase := .closed }

def channel : System Channel Signal where
  initial := ⟨.starting, 0, 0⟩
  Enabled := Channel.Enabled
  next := Channel.next

/-- Exactly the request being answered is owed an answer. -/
def Channel.Balanced (c : Channel) : Prop :=
  c.received = c.answered + if c.phase = .answering then 1 else 0

theorem channel_balanced {c : Channel} (h : Reachable channel c) : c.Balanced := by
  have hi : Inductive channel Channel.Balanced := by
    refine ⟨rfl, ?_⟩
    intro c e hc he
    unfold Channel.Balanced at hc ⊢
    cases e with
    | close =>
      rcases he with he | he
      · simpa [channel, Channel.next, he] using hc
      · simpa [channel, Channel.next, he] using hc
    | start | request | answer | renew =>
      have hp : c.phase = _ := he
      simp_all [channel, Channel.next]
  exact hi.reachable h

def view (s : State μ ρ) : Channel where
  phase :=
    if s.closed then .closed
    else if 0 < s.dispatched then .starting
    else if 0 < s.reads then .reading
    else if 0 < s.callbacks.length then .answering
    else .writing
  received := s.arrived.length
  answered := s.answers.length

/-- A loader that answers inside its call makes two protocol steps at once. -/
def signals (_ : State μ ρ) : Event μ ρ → List Signal
  | .dispatch => [.start]
  | .readDone (.received _) _ none => [.request]
  | .readDone (.received _) _ (some _) => [.request, .answer]
  | .readDone _ _ _ => [.close]
  | .respond _ _ => [.answer]
  | .writeDone w ok => [if ok = true ∧ w.keepAlive = true then .renew else .close]

theorem view_closed (hc : s.closed = true) :
    view s = ⟨.closed, s.arrived.length, s.answers.length⟩ := by
  simp [view, hc]

theorem view_starting (ht : tokens s = 1) (hd : 0 < s.dispatched) :
    view s = ⟨.starting, s.arrived.length, s.answers.length⟩ := by
  have ho := open_of_operation ht (by omega)
  simp [view, State.closed, ho, hd]

theorem view_reading (ht : tokens s = 1) (hr : 0 < s.reads) :
    view s = ⟨.reading, s.arrived.length, s.answers.length⟩ := by
  have ho := open_of_operation ht (by omega)
  have hd : s.dispatched = 0 := by simp only [tokens] at ht; omega
  simp [view, State.closed, ho, hd, hr]

theorem view_answering (ht : tokens s = 1) (hk : 0 < s.callbacks.length) :
    view s = ⟨.answering, s.arrived.length, s.answers.length⟩ := by
  have ho := open_of_operation ht (by omega)
  have hd : s.dispatched = 0 := by simp only [tokens] at ht; omega
  have hr : s.reads = 0 := by simp only [tokens] at ht; omega
  simp only [view, State.closed, ho, hd, hr, hk, Bool.or_false, Bool.false_eq_true, Nat.lt_irrefl,
    if_false, if_true]

theorem view_writing (ht : tokens s = 1) (hw : 0 < s.writes.length) :
    view s = ⟨.writing, s.arrived.length, s.answers.length⟩ := by
  have ho := open_of_operation ht (by omega)
  have hd : s.dispatched = 0 := by simp only [tokens] at ht; omega
  have hr : s.reads = 0 := by simp only [tokens] at ht; omega
  have hk : s.callbacks.length = 0 := by simp only [tokens] at ht; omega
  simp only [view, State.closed, ho, hd, hr, hk, Bool.or_false, Bool.false_eq_true, Nat.lt_irrefl,
    if_false]

private theorem single_signal {c d : Channel} {g : Signal} (he : c.Enabled g)
    (hn : c.next g = d) : Execution channel c [g] d := hn ▸ Execution.single he

theorem sendResponse_signal (h : Invariant keepAlive s) {k : ℕ} (hk : k ∈ s.callbacks) (r : ρ) :
    Execution channel (view s) [.answer] (view (sendResponse keepAlive s k r)) := by
  have hn := sendResponse_invariant h hk r
  apply single_signal
  · rw [view_answering h.token (List.length_pos_of_mem hk)]
    rfl
  · rw [view_answering h.token (List.length_pos_of_mem hk),
      view_writing hn.token (by simp [sendResponse])]
    simp [Channel.next, sendResponse]

theorem readDone_signals (h : Invariant keepAlive s) (he : 0 < s.reads) (result : ReadResult μ)
    (residue : List μ) (reply : Option ρ) :
    Execution channel (view s) (signals s (.readDone result residue reply))
      (view (next keepAlive s (.readDone result residue reply))) := by
  have hv := view_reading h.token he
  cases result with
  | received m =>
    have hh := handOver_invariant h he m residue
    have hfirst : Execution channel (view s) [.request]
        (view (handOver { s with reads := s.reads - 1 } m residue)) := by
      apply single_signal
      · rw [hv]
        rfl
      · rw [hv, view_answering hh.token (by simp [handOver])]
        simp [Channel.next, handOver]
    cases reply with
    | none => exact hfirst
    | some r => exact hfirst.trans (sendResponse_signal hh (by simp [handOver]) r)
  | endOfStream | failed =>
    apply single_signal
    · rw [hv]
      exact Or.inl rfl
    · rw [hv, view_closed (by simp [next, processRequest, endSession, State.closed])]
      rfl

theorem writeDone_signal (h : Invariant keepAlive s) {w : PendingWrite} (hw : w ∈ s.writes)
    (ok : Bool) : Execution channel (view s) (signals s (.writeDone w ok))
      (view (next keepAlive s (.writeDone w ok))) := by
  have hv := view_writing h.token (List.length_pos_of_mem hw)
  have hn := writeDone_invariant h hw ok
  simp only [signals]
  split
  · next hk =>
    apply single_signal
    · rw [hv]
      rfl
    · rw [hv, view_reading hn.token (by simp [next, responseStatus, readStream, hk])]
      simp [Channel.next, next, responseStatus, readStream, hk]
  · next hk =>
    have hc : (next keepAlive s (.writeDone w ok)).closed = true := by
      cases ok <;> simp_all [next, responseStatus, endSession, State.closed]
    apply single_signal
    · rw [hv]
      exact Or.inr rfl
    · rw [hv, view_closed hc]
      simp only [Channel.next, next, responseStatus]
      cases ok <;> simp_all [endSession]

theorem session_refines_channel :
    Refinement (session (μ := μ) keepAlive) channel (Invariant keepAlive) view signals where
  invariant := invariant_inductive
  initial := rfl
  step := by
    intro s e h he
    cases e with
    | dispatch =>
      have hn := dispatch_invariant h he
      apply single_signal
      · rw [view_starting h.token he]
        rfl
      · have hr : 0 < (next keepAlive s .dispatch).reads := Nat.succ_pos s.reads
        change _ = view (next keepAlive s .dispatch)
        rw [view_starting h.token he, view_reading hn.token hr]
        rfl
    | readDone result residue reply => exact readDone_signals h he result residue reply
    | respond k r => exact sendResponse_signal h he r
    | writeDone w ok => exact writeDone_signal h he ok

/-- Every request that reached the loader is answered or is the one being answered. -/
theorem session_balanced (h : Reachable (session keepAlive) s) : (view s).Balanced :=
  channel_balanced (session_refines_channel.reachable h)

end SimpleSession
