import Cur8or.ClientSurvival
import Cur8or.Interleaving
import Cur8or.SocketListener

/-! The program `main` starts: one listener, a session for every accepted socket, and the client's
functors behind all of them. Completions of different connections come in any order, on as many
threads as there are, and the files and the database may change between any two of them. -/
namespace ClientServer

open HttpResponses MessageProcessing ClientMain ClientSurvival HttpConnections TransitionSystem
open SimpleSession (ReadResult PendingWrite)
open SocketListener (SetupCall)

/-- `κ` is the type of sockets, `ι` that of the error codes of an accept. -/
structure State (κ ι : Type*) where
  listener : SocketListener.State κ ι
  connections : List (HttpConnections.State World)

variable {κ ι : Type*}

/-- `make_shared<SocketListener>(...)->acceptUpcoming()`, after which the pointer is gone. -/
def start (succeeds : SetupCall → Bool) : State κ ι where
  listener :=
    SocketListener.next (SocketListener.next (SocketListener.create succeeds) .acceptUpcoming)
      .release
  connections := []

inductive Event (κ ι : Type*) where
  | accept (result : Except ι κ)
  | act (i : ℕ) (e : HttpConnections.Event World)

def threads : ℕ := 4

def State.busy (s : State κ ι) : ℕ := s.connections.countP (·.loading.isSome)

/-- The calls that will not return. -/
def State.stuck (s : State κ ι) : ℕ := s.connections.countP (·.stuck)

/-- `context.run()` returns when nothing is left to wait for. -/
def State.working (s : State κ ι) : Prop :=
  0 < s.listener.accepts ∨ ∃ c ∈ s.connections, c.session.closed = false

/-- No call of the processor has ended the program, nor has `main` come to its end: there the
threads have not been joined, and the destructor of such a thread ends the program. -/
def State.alive (s : State κ ι) : Prop := (∀ c ∈ s.connections, c.alive) ∧ s.working

instance (s : State κ ι) : Decidable s.working := inferInstanceAs (Decidable (_ ∨ ∃ _ ∈ _, _))

instance (s : State κ ι) : Decidable s.alive :=
  inferInstanceAs (Decidable ((∀ _ ∈ _, _) ∧ _))

/-- The end of a call comes on the thread of that call, every other event on a free one. -/
def needsThread : HttpConnections.Event World → Bool
  | .respond _ => false
  | .dispatch | .readDone _ _ | .writeDone _ _ => true

def Enabled (s : State κ ι) : Event κ ι → Prop
  | .accept result =>
    s.alive ∧ s.busy < threads ∧ SocketListener.Enabled s.listener (.acceptDone result)
  | .act i e =>
    s.alive ∧ (needsThread e = true → s.busy < threads) ∧
      ∃ c, s.connections[i]? = some c ∧ HttpConnections.Enabled c e

instance (s : State κ ι) : (e : Event κ ι) → Decidable (Enabled s e)
  | .accept _ => inferInstanceAs (Decidable (_ ∧ _ ∧ _))
  | .act i e =>
    match h : s.connections[i]? with
    | none => isFalse (by simp [Enabled, h])
    | some c =>
      decidable_of_iff (s.alive ∧ (needsThread e = true → s.busy < threads) ∧
        HttpConnections.Enabled c e) (by simp [Enabled, h])

def next (residue : Residue) (s : State κ ι) : Event κ ι → State κ ι
  | .accept result =>
    { listener := SocketListener.next s.listener (.acceptDone result)
      connections :=
        match result with
        | .ok _ => s.connections ++ [startSession]
        | .error _ => s.connections }
  | .act i e =>
    { s with
      connections := s.connections.modify i (HttpConnections.next (clientProcessor residue) · e) }

def server (residue : Residue) (succeeds : SetupCall → Bool) :
    System (State κ ι) (Event κ ι) where
  initial := start succeeds
  Enabled := Enabled
  next := next residue

instance (residue : Residue) (succeeds : SetupCall → Bool) (s : State κ ι) (e : Event κ ι) :
    Decidable ((server residue succeeds).Enabled s e) := inferInstanceAs (Decidable (Enabled s e))

variable {residue : Residue} {succeeds : SetupCall → Bool} {s : State κ ι}

def familyEvents (_ : State κ ι) :
    Event κ ι → List (Interleaving.Event (HttpConnections.Event World))
  | .accept (.ok _) => [.start]
  | .accept (.error _) => []
  | .act i e => [.act i e]

theorem server_refines_family :
    Refinement (server (κ := κ) (ι := ι) residue succeeds)
      (Interleaving.family (connection (clientProcessor residue))) (fun _ => True)
      State.connections familyEvents where
  invariant := ⟨trivial, fun _ _ _ _ => trivial⟩
  initial := rfl
  step := by
    intro s e _ he
    cases e with
    | accept result =>
      cases result with
      | ok socket => exact Execution.single (S := Interleaving.family _) trivial
      | error e => exact .refl _
    | act i e => exact Execution.single (S := Interleaving.family _) he.2.2

theorem connection_reachable (h : Reachable (server residue succeeds) s)
    {c : HttpConnections.State World} (hc : c ∈ s.connections) :
    Reachable (connection (clientProcessor residue)) c :=
  Interleaving.member_reachable (server_refines_family.reachable h) hc

theorem connection_invariant (h : Reachable (server residue succeeds) s)
    {c : HttpConnections.State World} (hc : c ∈ s.connections) :
    HttpConnections.Invariant (clientProcessor residue) c :=
  HttpConnections.reachable_invariant (connection_reachable h hc)

structure Listening (succeeds : SetupCall → Bool) (s : State κ ι) : Prop where
  loop : SocketListener.Invariant succeeds s.listener
  once : s.listener.calls = 1
  unheld : s.listener.handles = 0
  started : s.connections.length = s.listener.handled.length

theorem listening_inductive :
    Inductive (server (κ := κ) (ι := ι) residue succeeds) (Listening succeeds) where
  initial := ⟨⟨rfl, rfl, rfl, fun _ => rfl, fun _ => rfl⟩, rfl, rfl, rfl⟩
  step := by
    intro s e h he
    cases e with
    | act i e =>
      refine ⟨h.loop, h.once, h.unheld, ?_⟩
      exact (List.length_modify _ _ _).trans h.started
    | accept result =>
      have hloop := SocketListener.acceptDone_invariant h.loop he.2.2
      cases result with
      | ok socket =>
        refine ⟨hloop, h.once, h.unheld, ?_⟩
        change (s.connections ++ [startSession]).length = (s.listener.handled ++ [socket]).length
        rw [List.length_append, List.length_append, h.started]
        rfl
      | error e => exact ⟨hloop, h.once, h.unheld, h.started⟩

theorem reachable_listening (h : Reachable (server residue succeeds) s) : Listening succeeds s :=
  listening_inductive.reachable h

/-- What a peer can rely on in a state of the server, whatever the others do. -/
structure Served (residue : Residue) (s : State κ ι) : Prop where
  connected : s.connections.length = s.listener.handled.length
  exclusive : ∀ c ∈ s.connections,
    c.session.reads + c.session.writes.length + c.loading.toList.length ≤ 1
  ordered : ∀ c ∈ s.connections,
    c.session.answers.map Prod.fst = List.range c.processed.length
  answered : ∀ c ∈ s.connections, ∀ k r, (k, r) ∈ c.session.answers → ∃ (w : World) (m : Request),
    c.processed[k]? = some (w, m) ∧ c.session.arrived[k]? = some m ∧
      (process w.host residue (client w.env) m).responses = [r] ∧ r.Carries m
  complete : ∀ c ∈ s.connections,
    c.session.arrived = c.processed.map Prod.snd ++ c.loading.toList.map Prod.snd
  renewed : ∀ c ∈ s.connections, ∀ w ∈ c.session.writes, ∀ ok, ∃ m,
    c.session.arrived[w.request]? = some m ∧
      (HttpConnections.next (clientProcessor residue) c (.writeDone w ok)).session.started =
        c.session.started ++ (if ok = true ∧ m.keepAlive = true then [.read] else [])

theorem connection_exclusive {p : Processor World} {c : HttpConnections.State World}
    (h : HttpConnections.Invariant p c) :
    c.session.reads + c.session.writes.length + c.loading.toList.length ≤ 1 := by
  have ht := h.session.token
  have hc := congrArg List.length h.calling
  rw [List.length_map] at hc
  simp only [SimpleSession.tokens] at ht
  omega

theorem connection_ordered {p : Processor World} {c : HttpConnections.State World}
    (h : HttpConnections.Invariant p c) :
    c.session.answers.map Prod.fst = List.range c.processed.length := by
  rw [h.session.ordered, h.answered.length_eq, List.length_map]

/-- Every answer is what the processor makes of the request of its number and of the files and the
database it met then, on every connection and in every interleaving with the others. -/
theorem server_serves (h : Reachable (server residue succeeds) s) : Served residue s where
  connected := (reachable_listening h).started
  exclusive _ hc := connection_exclusive (connection_invariant h hc)
  ordered _ hc := connection_ordered (connection_invariant h hc)
  answered c hc k r hr := by
    obtain ⟨q, hq, hm, _, hresponses, hcarries⟩ := answer_origin (connection_invariant h hc) hr
    exact ⟨q.1, q.2, hq, hm, hresponses, hcarries⟩
  complete _ hc := (connection_invariant h hc).arrived
  renewed _ hc _ hw ok := renewed_as_asked (connection_invariant h hc) hw ok

def overlapping (world : World) : List (Event Char ℕ) :=
  let root : Request := ⟨.get, .ofText "/?page", 11, true, .empty⟩
  [.accept (.ok 'a'), .accept (.ok 'b'), .act 0 .dispatch, .act 1 .dispatch,
    .act 0 (.readDone (.received root) []), .act 1 (.readDone (.received root) []),
    .act 1 (.respond world), .act 0 (.respond world), .act 0 (.writeDone ⟨0, true⟩ true),
    .accept (.error 24)]

def overlapped : State Char ℕ :=
  runTrace (server id fun _ => true) (start fun _ => true) (overlapping ⟨shortNames, emptyHost⟩)

theorem overlapped_execution : Execution (server id fun _ => true) (start fun _ => true)
    (overlapping ⟨shortNames, emptyHost⟩) overlapped :=
  valid_trace_execution (by decide +kernel)

theorem overlapped_reachable : Reachable (server id fun _ => true) overlapped :=
  ⟨_, overlapped_execution⟩

theorem server_serves_overlapped : Served id overlapped := server_serves overlapped_reachable

instance : Nonempty World := ⟨⟨shortNames, emptyHost⟩⟩

theorem busy_le_inductive :
    Inductive (server (κ := κ) (ι := ι) residue succeeds) fun s => s.busy ≤ threads where
  initial := Nat.zero_le _
  step := by
    intro s e h he
    cases e with
    | accept result =>
      cases result with
      | error e => exact h
      | ok socket =>
        change (s.connections ++ [startSession]).countP _ ≤ threads
        rw [List.countP_append]
        exact h
    | act i e =>
      obtain ⟨_, hthread, _⟩ := he
      have hone := Interleaving.countP_modify_le (·.loading.isSome)
        (HttpConnections.next (clientProcessor residue) · e) s.connections i
      cases e with
      | dispatch | readDone result left | writeDone w ok =>
        exact Nat.le_trans hone (hthread rfl)
      | respond w =>
        refine Nat.le_trans (Interleaving.countP_modify_le_self ?_ _ i) h
        intro c hc
        change (respond (clientProcessor residue) c w).loading.isSome = true at hc
        rw [respond] at hc
        split at hc
        · exact hc
        · next hl => rw [hl]; rfl

def State.waiting (s : State κ ι) : Prop :=
  0 < s.listener.accepts ∨ ∃ c ∈ s.connections, c.session.closed = false ∧ c.stuck = false

/-- The connections share the life and the threads of the program, and nothing else stops one. -/
structure SharedFate (s : State κ ι) : Prop where
  alive_iff : s.alive ↔ (∀ c ∈ s.connections, ∀ q ∈ c.attempts,
    Survives q.1.env q.2 ∨ Hangs q.1.env q.2) ∧ s.working
  stuck_iff : ∀ c ∈ s.connections, c.stuck = true ↔ ∃ q ∈ c.attempts, ¬ Survives q.1.env q.2
  busy_le : s.busy ≤ threads
  halted : ¬ s.alive → ∀ e, ¬ Enabled s e
  moves : s.alive → s.busy < threads → ∀ i c, s.connections[i]? = some c →
    (c.session.closed = false ∧ c.stuck = false ↔ ∃ e, Enabled s (.act i e))
  finishes : s.alive → ∀ i c, s.connections[i]? = some c →
    (c.stuck = false ∧ c.loading.isSome = true ↔ ∀ w, Enabled s (.act i (.respond w)))
  jammed : s.alive → ((∃ e, Enabled s e) ↔ s.stuck < threads ∧ s.waiting)

theorem connections_alive_iff (h : Reachable (server residue succeeds) s) :
    (∀ c ∈ s.connections, c.alive) ↔
      ∀ c ∈ s.connections, ∀ q ∈ c.attempts, Survives q.1.env q.2 ∨ Hangs q.1.env q.2 := by
  refine forall₂_congr fun c hc => ?_
  rw [HttpConnections.alive_iff (connection_invariant h hc)]
  refine forall₂_congr fun q _ => ?_
  obtain ⟨hreturned, hendless⟩ := ended_iff q.1.env q.1.host residue q.2
  exact or_congr hreturned hendless

theorem act_enabled_iff (ha : s.alive) {i : ℕ} {c : HttpConnections.State World}
    (hc : s.connections[i]? = some c) (e : HttpConnections.Event World) :
    Enabled s (.act i e) ↔
      (needsThread e = true → s.busy < threads) ∧ HttpConnections.Enabled c e := by
  constructor
  · rintro ⟨_, hthread, c', hc', he⟩
    obtain rfl := Option.some.inj (hc.symm.trans hc')
    exact ⟨hthread, he⟩
  · rintro ⟨hthread, he⟩
    exact ⟨ha, hthread, c, hc, he⟩

theorem stuck_le_busy (h : Reachable (server residue succeeds) s) : s.stuck ≤ s.busy :=
  List.countP_mono_left fun _ hc hs => loading_of_stuck (connection_invariant h hc) hs

/-- A thread that is kept for good moves nothing, any other one can be waited for. -/
theorem jammed_iff [Nonempty ι] (h : Reachable (server residue succeeds) s) (ha : s.alive) :
    (∃ e, Enabled s e) ↔ s.stuck < threads ∧ s.waiting := by
  have hbusy := busy_le_inductive.reachable h
  have hstuck := stuck_le_busy h
  have hloading : ∀ c ∈ s.connections, c.stuck = true → c.loading.isSome = true :=
    fun c hc => loading_of_stuck (connection_invariant h hc)
  constructor
  · rintro ⟨e, he⟩
    cases e with
    | accept result =>
      obtain ⟨_, hfree, he⟩ := he
      refine ⟨Nat.lt_of_le_of_lt hstuck hfree, Or.inl ?_⟩
      cases result with
      | ok socket => exact he.1
      | error e => exact he
    | act i e =>
      obtain ⟨_, hthread, c, hc, he⟩ := he
      have hmem := List.mem_of_getElem? hc
      obtain ⟨hopen, hc⟩ := (open_iff_enabled (connection_invariant h hmem)
        (ha.1 c hmem)).mpr ⟨e, he⟩
      refine ⟨?_, Or.inr ⟨c, hmem, hopen, hc⟩⟩
      cases e with
      | dispatch | readDone result left | writeDone w ok =>
        exact Nat.lt_of_le_of_lt hstuck (hthread rfl)
      | respond w =>
        have hlt := Interleaving.countP_lt hloading hmem he.2 hc
        exact Nat.lt_of_lt_of_le hlt hbusy
  · rintro ⟨hlt, hwaiting⟩
    by_cases hfree : s.busy < threads
    · rcases hwaiting with haccept | ⟨c, hmem, hopen⟩
      · exact ⟨.accept (.error (Classical.arbitrary ι)), ha, hfree, haccept⟩
      · obtain ⟨i, hc⟩ := List.mem_iff_getElem?.mp hmem
        obtain ⟨e, he⟩ := (open_iff_enabled (connection_invariant h hmem) (ha.1 c hmem)).mp hopen
        exact ⟨.act i e, ha, fun _ => hfree, c, hc, he⟩
    · obtain ⟨c, hmem, hl, hc⟩ : ∃ c ∈ s.connections, c.loading.isSome = true ∧
          c.stuck = false := by
        by_contra hno
        have hall : ∀ c ∈ s.connections, c.loading.isSome = true → c.stuck = true :=
          fun c hc hl => Bool.of_not_eq_false fun hs => hno ⟨c, hc, hl, hs⟩
        have hle : s.busy ≤ s.stuck := List.countP_mono_left hall
        omega
      obtain ⟨i, hi⟩ := List.mem_iff_getElem?.mp hmem
      exact ⟨.act i (.respond (Classical.arbitrary World)), ha, by simp [needsThread], c, hi, hc, hl⟩

theorem accept_failure_final (h : Reachable (server residue succeeds) s)
    (hf : SocketListener.failures s.listener.completed ≠ []) {es : List (Event κ ι)}
    {t : State κ ι} (hx : Execution (server residue succeeds) s es t) :
    t.listener = s.listener ∧ t.connections.length = s.connections.length := by
  have hl := reachable_listening h
  have hloops := hl.loop.loops
  have hpos := List.length_pos_iff.mpr hf
  have hdeaf : s.listener.accepts = 0 := by
    rw [hl.once] at hloops
    omega
  induction hx with
  | refl => exact ⟨rfl, rfl⟩
  | @tail es t e _ he ih =>
    obtain ⟨hlistener, hlength⟩ := ih
    cases e with
    | accept result =>
      have he := he.2.2
      rw [hlistener] at he
      cases result <;> simp [SocketListener.Enabled, hdeaf] at he
    | act i e => exact ⟨hlistener, (List.length_modify _ _ _).trans hlength⟩

def lastWrite : Event Char ℕ := .act 1 (.writeDone ⟨0, true⟩ true)

theorem lastWrite_enabled : Enabled overlapped lastWrite := by decide +kernel

theorem accept_failure_final_overlapped :
    (next id overlapped lastWrite).listener = overlapped.listener ∧
    (next id overlapped lastWrite).connections.length = overlapped.connections.length :=
  have hx : Execution (server id fun _ => true) overlapped [lastWrite]
      (next id overlapped lastWrite) := .tail (.refl overlapped) lastWrite_enabled
  accept_failure_final overlapped_reachable (by decide +kernel) hx

def potential (s : State κ ι) : ℕ :=
  s.listener.completed.length + (s.connections.map HttpConnections.potential).sum

def requests (s : State κ ι) : ℕ := (s.connections.map (·.session.arrived.length)).sum

theorem potential_next (h : Reachable (server residue succeeds) s) {e : Event κ ι}
    (he : Enabled s e) : potential s < potential (next residue s e) := by
  cases e with
  | accept result =>
    cases result with
    | ok socket =>
      simp only [potential, next, SocketListener.next, SocketListener.runHandlerOnSocket,
        SocketListener.acceptUpcoming, List.length_append, List.length_singleton, List.map_append,
        List.sum_append]
      omega
    | error e =>
      simp only [potential, next, SocketListener.next, SocketListener.runHandlerOnSocket,
        List.length_append, List.length_singleton]
      omega
  | act i e =>
    obtain ⟨_, _, c, hc, he⟩ := he
    have hinv := connection_invariant h (List.mem_of_getElem? hc)
    have hlt := Interleaving.sum_modify_lt HttpConnections.potential
      (HttpConnections.next (clientProcessor residue) · e) hc
      (HttpConnections.potential_next hinv he)
    simp only [potential, next]
    omega

theorem potential_le (h : Reachable (server residue succeeds) s) :
    potential s ≤ 3 * (requests s + s.connections.length) + 1 := by
  have hl := reachable_listening h
  have hloops := hl.loop.loops
  have hsplit := congrArg List.length (hl.loop.last (le_of_eq hl.once))
  rw [List.length_append, List.length_map, List.length_map, ← hl.started] at hsplit
  have hsum := Interleaving.sum_map_le HttpConnections.potential (·.session.arrived.length)
    fun c hc => HttpConnections.potential_le (connection_invariant h hc)
  rw [hl.once] at hloops
  simp only [potential, requests]
  omega

/-- Nothing spins: what the server has done is bounded by what it has been sent. -/
theorem server_run_bounded {es : List (Event κ ι)}
    (hx : Execution (server residue succeeds) (start succeeds) es s) :
    es.length ≤ 3 * (requests s + s.connections.length) + 1 := by
  have hs : Reachable (server residue succeeds) s := ⟨es, hx⟩
  have hlen := (reachable_inductive (server residue succeeds)).length_le
    potential (fun _ _ h he => potential_next h he) hx (.initial _)
  have hle := potential_le hs
  omega

theorem server_run_bounded_overlapped :
    (overlapping ⟨shortNames, emptyHost⟩).length ≤
      3 * (requests overlapped + overlapped.connections.length) + 1 :=
  server_run_bounded overlapped_execution

end ClientServer
