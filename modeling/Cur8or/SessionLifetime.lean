import Cur8or.ClientServer
import Cur8or.SessionMemory

/-! The server with its objects in memory beside it. The reference counts are followed through
every run, whatever the order of the completions and however often a functor copies its query. -/
namespace SessionLifetime

open SharedOwnership SessionMemory ClientMain ClientSurvival TransitionSystem
open HttpResponses (Request)
open MessageProcessing (Residue)
open SimpleSession (ReadResult PendingWrite)
open SocketListener (SetupCall)

/-- `sessions` says where the session of each connection lies; `stalled` are the references kept
by calls without end. -/
structure State (κ ι : Type*) where
  server : ClientServer.State κ ι
  memory : Memory Object
  sessions : List ℕ
  stalled : List ℕ

variable {κ ι : Type*}

/-- `main` up to the running of the context. -/
def start (succeeds : SetupCall → Bool) : State κ ι where
  server := ClientServer.start succeeds
  memory :=
    (acceptUpcoming ((Memory.empty.make .resolver none).make .listener none)).release listener
  sessions := []
  stalled := []

def act (residue : Residue) (copies : World → Request → ℕ) (c : HttpConnections.State World)
    (m : Memory Object) (id : ℕ) : HttpConnections.Event World → Memory Object
  | .dispatch => handler m id true
  | .readDone (.received _) _ => processRequest m id
  | .readDone .endOfStream _ => handler m id false
  | .readDone .failed _ => handler m id false
  | .respond w =>
    match c.loading with
    | some (_, request) =>
      respond m id (copies w request) ((clientProcessor residue).call w request)
    | none => m
  | .writeDone w ok => handler m id (ok && w.keepAlive)

/-- The references such an event leaves behind for good. -/
def keeps (residue : Residue) (copies : World → Request → ℕ) (c : HttpConnections.State World)
    (m : Memory Object) : HttpConnections.Event World → List ℕ
  | .respond w =>
    match c.loading with
    | some (_, request) => stalls m (copies w request) ((clientProcessor residue).call w request)
    | none => []
  | .dispatch | .readDone _ _ | .writeDone _ _ => []

def next (residue : Residue) (copies : World → Request → ℕ) (s : State κ ι) :
    ClientServer.Event κ ι → State κ ι
  | .accept result =>
    { s with
      server := ClientServer.next residue s.server (.accept result)
      memory := runHandlerOnSocket s.memory result.isOk
      sessions :=
        match result with
        | .ok _ => s.sessions ++ [s.memory.heap.cells.length]
        | .error _ => s.sessions }
  | .act i e =>
    { s with
      server := ClientServer.next residue s.server (.act i e)
      memory :=
        match s.server.connections[i]?, s.sessions[i]? with
        | some c, some id => act residue copies c s.memory id e
        | _, _ => s.memory
      stalled := s.stalled ++
        match s.server.connections[i]? with
        | some c => keeps residue copies c s.memory e
        | none => [] }

def lifetimes (residue : Residue) (copies : World → Request → ℕ) (succeeds : SetupCall → Bool) :
    System (State κ ι) (ClientServer.Event κ ι) where
  initial := start succeeds
  Enabled s e := ClientServer.Enabled s.server e
  next := next residue copies

def hung (c : HttpConnections.State World) : Bool :=
  decide (c.unreturned.map Prod.snd = some .endless)

/-- The references a connection holds: one for every operation under way, and while its request
is processed one for the handler and one for the callback, until a finalizer takes that over. -/
def holds (c : HttpConnections.State World) : ℕ :=
  c.session.dispatched + c.session.reads + c.session.writes.length +
    2 * c.session.callbacks.length - (hung c).toNat

def held (connections : List (HttpConnections.State World)) (sessions : List ℕ) : List ℕ :=
  (List.zipWith (fun c id => List.replicate (holds c) id) connections sessions).flatten

def roots (s : State κ ι) : List ℕ :=
  held s.server.connections s.sessions ++
    (s.stalled ++ (List.replicate s.server.listener.accepts listener ++ [resolver]))

theorem mem_of_mem_held {connections : List (HttpConnections.State World)} {sessions : List ℕ}
    {j : ℕ} (hj : j ∈ held connections sessions) : j ∈ sessions := by
  simp only [held, List.mem_flatten] at hj
  obtain ⟨l, hl, hjl⟩ := hj
  obtain ⟨n, hn, rfl⟩ := List.mem_iff_getElem.mp hl
  rw [List.getElem_zipWith] at hjl
  rw [List.eq_of_mem_replicate hjl]
  exact List.getElem_mem _

theorem count_held {connections : List (HttpConnections.State World)} {sessions : List ℕ} {i id : ℕ}
    {c : HttpConnections.State World} (hn : sessions.Nodup) (hc : connections[i]? = some c)
    (hid : sessions[i]? = some id) : (held connections sessions).count id = holds c := by
  induction connections generalizing sessions i with
  | nil => cases hc
  | cons x connections ih =>
    cases sessions with
    | nil => cases hid
    | cons y sessions =>
      obtain ⟨hy, hn⟩ := List.nodup_cons.mp hn
      have hcons : held (x :: connections) (y :: sessions) =
        List.replicate (holds x) y ++ held connections sessions := rfl
      rw [hcons, List.count_append]
      cases i with
      | zero =>
        obtain rfl := Option.some.inj hc
        obtain rfl := Option.some.inj hid
        rw [List.count_replicate_self,
          List.count_eq_zero_of_not_mem fun hm => hy (mem_of_mem_held hm), Nat.add_zero]
      | succ i =>
        have hne : y ≠ id := fun h => hy (h ▸ List.mem_of_getElem? hid)
        rw [List.count_eq_zero_of_not_mem fun hm => hne (List.eq_of_mem_replicate hm).symm,
          Nat.zero_add]
        exact ih hn hc hid

theorem start_sound (succeeds : SetupCall → Bool) :
    (start (κ := κ) (ι := ι) succeeds).memory.Sound [listener, resolver] := by
  have hresolver := Memory.Sound.make Object.resolver none Memory.Sound.initial
  have hlistener := Memory.Sound.make Object.listener none hresolver
  have haccept := hlistener.sharedFromThis List.mem_cons_self
  exact haccept.release

theorem act_grows (residue : Residue) (copies : World → Request → ℕ)
    (c : HttpConnections.State World) (m : Memory Object) (id : ℕ)
    (e : HttpConnections.Event World) :
    Memory.Grows (.finalizer, some id) m (act residue copies c m id e) := by
  cases e with
  | dispatch => exact handler_grows _ true
  | readDone result residue =>
    cases result with
    | received request => exact Memory.Grows.of_fixed fun j => by simp [act, processRequest]
    | endOfStream => exact handler_grows _ false
    | failed => exact handler_grows _ false
  | respond w =>
    simp only [act]
    cases c.loading with
    | some l => exact respond_grows _ _
    | none => exact Memory.Grows.of_fixed fun _ => rfl
  | writeDone w ok => exact handler_grows _ _

def Made (sessions : List ℕ) (j : ℕ) : Object × Option ℕ → Prop
  | (.resolver, g) => j = resolver ∧ g = none
  | (.listener, g) => j = listener ∧ g = none
  | (.session, g) => j ∈ sessions ∧ g = some resolver
  | (.finalizer, g) => ∃ id ∈ sessions, g = some id

/-- The session at `id` is that of a connection whose call goes on without end. -/
def Stalled (s : State κ ι) (id : ℕ) : Prop :=
  ∃ (i : ℕ) (c : HttpConnections.State World), s.sessions[i]? = some id ∧
    s.server.connections[i]? = some c ∧ hung c = true

/-- The references the heap counts are those of the operations under way, and of nothing else. -/
structure Invariant (residue : Residue) (succeeds : SetupCall → Bool) (s : State κ ι) : Prop where
  server : Reachable (ClientServer.server residue succeeds) s.server
  sound : s.memory.Sound (roots s)
  placed : s.sessions.length = s.server.connections.length
  distinct : s.sessions.Nodup
  resolver : s.memory.heap.fixed resolver = some (.resolver, none)
  listener : s.memory.heap.fixed listener = some (.listener, none)
  session : ∀ id ∈ s.sessions, s.memory.heap.fixed id = some (.session, some SessionMemory.resolver)
  made : ∀ j x, s.memory.heap.fixed j = some x → Made s.sessions j x
  stalled : ∀ j ∈ s.stalled, ∃ id, s.memory.heap.fixed j = some (.finalizer, some id) ∧
    Stalled s id
  kept : ∀ id, Stalled s id → ∃ j ∈ s.stalled, s.memory.heap.fixed j = some (.finalizer, some id)

variable {residue : Residue} {copies : World → Request → ℕ} {succeeds : SetupCall → Bool}
variable {s : State κ ι}

theorem Made.mono {sessions more : List ℕ} (hsub : ∀ id ∈ sessions, id ∈ more) {j : ℕ}
    {x : Object × Option ℕ} (h : Made sessions j x) : Made more j x := by
  obtain ⟨object, g⟩ := x
  cases object with
  | resolver => exact h
  | listener => exact h
  | session => exact ⟨hsub j h.1, h.2⟩
  | finalizer =>
    obtain ⟨id, hid, hg⟩ := h
    exact ⟨id, hsub id hid, hg⟩

theorem start_fixed (succeeds : SetupCall → Bool) (j : ℕ) :
    (start (κ := κ) (ι := ι) succeeds).memory.heap.fixed j =
      if j = 1 then some (.listener, none) else if j = 0 then some (.resolver, none) else none := by
  rw [start, Memory.fixed_release, acceptUpcoming, Memory.fixed_sharedFromThis]
  change ((Heap.empty.make Object.resolver none).make Object.listener none).fixed j = _
  rw [Heap.fixed_make, Heap.fixed_make]
  rfl

theorem start_invariant :
    Invariant residue succeeds (start (κ := κ) (ι := ι) succeeds) where
  server := Reachable.initial _
  sound := start_sound succeeds
  placed := rfl
  distinct := List.nodup_nil
  resolver := start_fixed succeeds 0
  listener := start_fixed succeeds 1
  session _ hid := by cases hid
  made j x hj := by
    rw [start_fixed] at hj
    split at hj
    · next h1 =>
      obtain rfl := Option.some.inj hj
      exact ⟨h1, rfl⟩
    split at hj
    · next h0 =>
      obtain rfl := Option.some.inj hj
      exact ⟨h0, rfl⟩
    · cases hj
  stalled _ hj := by cases hj
  kept _ := fun ⟨_, _, hid, _⟩ => by cases hid

theorem hung_unreturned {c : HttpConnections.State World} (h : hung c = true) :
    ∃ q, c.unreturned = some (q, .endless) := by
  obtain ⟨⟨q, e⟩, hq, he⟩ := Option.map_eq_some_iff.mp (of_decide_eq_true h)
  obtain rfl : e = .endless := he
  exact ⟨q, hq⟩

theorem hung_stuck {c : HttpConnections.State World} (h : hung c = true) : c.stuck = true := by
  obtain ⟨q, hq⟩ := hung_unreturned h
  rw [HttpConnections.State.stuck, hq]
  rfl

theorem not_hung {c : HttpConnections.State World} (h : c.stuck = false) : hung c = false :=
  Bool.eq_false_iff.mpr fun hh => absurd (h.symm.trans (hung_stuck hh)) (by decide)

theorem hung_callbacks {c : HttpConnections.State World}
    (h : HttpConnections.Invariant (clientProcessor residue) c) (hh : hung c = true) :
    c.session.callbacks.length = 1 := by
  obtain ⟨q, hq⟩ := hung_unreturned hh
  obtain ⟨_, _, k, hk⟩ := h.unreturned _ hq
  rw [h.calling, hk]
  rfl

/-- The token of a session says how many references its connection holds. -/
theorem holds_eq {c : HttpConnections.State World}
    (h : HttpConnections.Invariant (clientProcessor residue) c) :
    holds c + (hung c).toNat + c.session.closed.toNat = 1 + c.session.callbacks.length := by
  have ht := h.session.token
  have hc := hung_callbacks h
  simp only [SimpleSession.tokens] at ht
  rw [holds]
  cases hh : hung c with
  | false =>
    rw [Bool.toNat_false]
    omega
  | true =>
    have hone := hc hh
    rw [Bool.toNat_true]
    omega

theorem hung_open {c : HttpConnections.State World}
    (h : HttpConnections.Invariant (clientProcessor residue) c) (hh : hung c = true) :
    c.session.closed = false ∧ holds c = 1 := by
  have hone := hung_callbacks h hh
  have hholds := holds_eq h
  have ht := h.session.token
  simp only [SimpleSession.tokens] at ht
  rw [hh, Bool.toNat_true] at hholds
  cases hclosed : c.session.closed with
  | false =>
    rw [hclosed, Bool.toNat_false] at hholds
    exact ⟨rfl, by omega⟩
  | true =>
    rw [hclosed, Bool.toNat_true] at ht
    omega

section Events

variable {c : HttpConnections.State World} {m : Memory Object} {id : ℕ} {rest : List ℕ}

theorem holds_of_operation (h : HttpConnections.Invariant (clientProcessor residue) c)
    (ho : 0 < c.session.dispatched + c.session.reads + c.session.writes.length) :
    holds c = 1 ∧ c.session.callbacks = [] ∧ hung c = false := by
  have ht := h.session.token
  simp only [SimpleSession.tokens] at ht
  have hc : c.session.callbacks = [] := by
    apply List.eq_nil_of_length_eq_zero
    omega
  have hh : hung c = false := by
    cases hh : hung c with
    | false => rfl
    | true =>
      have hone := hung_callbacks h hh
      rw [hc] at hone
      cases hone
  refine ⟨?_, hc, hh⟩
  rw [holds, hh, Bool.toNat_false]
  omega

theorem holds_of_not_hung {t : SimpleSession.State Request HttpResponses.Response}
    {l : Option (ℕ × Request)} {wire : List HttpResponses.Response} (hh : hung c = false) :
    holds { c with session := t, loading := l, wire := wire } =
      t.dispatched + t.reads + t.writes.length + 2 * t.callbacks.length := by
  have hsame : hung { c with session := t, loading := l, wire := wire } = hung c := rfl
  rw [holds, hsame, hh]
  rfl

theorem dispatch_holds (h : HttpConnections.Invariant (clientProcessor residue) c)
    (he : 0 < c.session.dispatched) (hs : m.Sound (List.replicate (holds c) id ++ rest)) :
    (handler m id true).Sound (List.replicate
      (holds (HttpConnections.next (clientProcessor residue) c .dispatch)) id ++ rest) := by
  obtain ⟨hone, hc, hh⟩ := holds_of_operation h (by omega)
  have hnext : holds (HttpConnections.next (clientProcessor residue) c .dispatch) = 1 := by
    have ht := h.session.token
    simp only [SimpleSession.tokens] at ht
    refine (holds_of_not_hung hh).trans ?_
    simp only [SimpleSession.next, SimpleSession.readStream, hc, List.length_nil]
    omega
  rw [hone] at hs
  rw [hnext]
  exact handler_sound hs true

theorem readDone_holds (h : HttpConnections.Invariant (clientProcessor residue) c)
    (he : 0 < c.session.reads) (hs : m.Sound (List.replicate (holds c) id ++ rest))
    (result : ReadResult Request) (left : List Request) :
    (act residue copies c m id (.readDone result left)).Sound (List.replicate
      (holds (HttpConnections.next (clientProcessor residue) c (.readDone result left))) id ++
        rest) := by
  obtain ⟨hone, hc, hh⟩ := holds_of_operation h (by omega)
  have ht := h.session.token
  simp only [SimpleSession.tokens] at ht
  rw [hone] at hs
  cases result with
  | received request =>
    have hnext : holds (HttpConnections.next (clientProcessor residue) c
        (.readDone (.received request) left)) = 2 := by
      refine (holds_of_not_hung hh).trans ?_
      simp only [SimpleSession.next, SimpleSession.processRequest, SimpleSession.handOver, hc,
        List.length_cons, List.length_nil]
      omega
    rw [hnext]
    exact processRequest_sound hs
  | endOfStream | failed =>
    have hnext : ∀ result : ReadResult Request, (∀ request, result ≠ .received request) →
        holds (HttpConnections.next (clientProcessor residue) c (.readDone result left)) = 0 := by
      intro result hnone
      refine (holds_of_not_hung hh).trans ?_
      cases result with
      | received request => exact absurd rfl (hnone request)
      | endOfStream | failed =>
        simp only [SimpleSession.next, SimpleSession.processRequest, SimpleSession.endSession, hc,
          List.length_nil]
        omega
    rw [hnext _ (by simp)]
    exact handler_sound hs false

theorem respond_holds (h : HttpConnections.Invariant (clientProcessor residue) c)
    (hstuck : c.stuck = false) {w : World} (he : c.loading.isSome = true)
    (hs : m.Sound (List.replicate (holds c) id ++ rest)) :
    (act residue copies c m id (.respond w)).Sound (List.replicate
      (holds (HttpConnections.next (clientProcessor residue) c (.respond w))) id ++
        (keeps residue copies c m (.respond w) ++ rest)) := by
  have hnext := HttpConnections.respond_invariant h w he hstuck
  obtain ⟨⟨k, request⟩, hl⟩ := Option.isSome_iff_exists.mp he
  have hc := h.calling
  have hh := not_hung hstuck
  rw [hl] at hc
  have hclosed : c.session.closed = false := by
    have ht := h.session.token
    simp only [SimpleSession.tokens, hc] at ht
    cases hcl : c.session.closed with
    | false => rfl
    | true => simp [hcl] at ht
  have htwo : holds c = 2 := by
    have hholds := holds_eq h
    simpa [hc, hclosed, hh] using hholds
  simp only [act, keeps, hl]
  change ((respond m id _ _).Sound
    (List.replicate (holds (HttpConnections.respond (clientProcessor residue) c w)) id ++ _))
  rw [htwo] at hs
  rcases (clientProcessor residue).once w request with ⟨hended, r, hr, _⟩ | ⟨hended, _⟩
  · have hone : holds (HttpConnections.respond (clientProcessor residue) c w) = 1 := by
      have hholds := holds_eq hnext
      rw [HttpConnections.respond_returned hl hended hr] at hnext hholds ⊢
      have hcalls : (SimpleSession.sendResponse HttpResponses.Response.keepAlive c.session k
        r).callbacks = [] := hnext.calling
      have hopen : (SimpleSession.sendResponse HttpResponses.Response.keepAlive c.session k
        r).closed = c.session.closed := rfl
      have hsame : hung { c with
        session := SimpleSession.sendResponse HttpResponses.Response.keepAlive c.session k r
        loading := none
        processed := c.processed ++ [(w, request)] } = hung c := rfl
      simpa [hcalls, hopen, hclosed, hsame, hh] using hholds
    rw [hone, stalls, if_neg (by rw [hended]; decide)]
    exact respond_returned hs _ hended (by rw [hr]; rfl)
  · rw [HttpConnections.respond_unreturned hl hended] at hnext ⊢
    by_cases hendless : ((clientProcessor residue).call w request).ended = .endless
    · have hone := (hung_open hnext (by simp [hung, hendless])).2
      rw [hone]
      exact respond_endless hs _ hendless
    · have hsame : holds { c with
          unreturned := some ((w, request), ((clientProcessor residue).call w request).ended) } =
            2 := by
        have hholds := holds_eq hnext
        simpa [hung, hendless, hc, hclosed] using hholds
      rw [hsame, stalls, if_neg hendless, respond_ended _ hended hendless]
      exact hs

theorem writeDone_holds (h : HttpConnections.Invariant (clientProcessor residue) c)
    {w : PendingWrite} (hw : w ∈ c.session.writes) (ok : Bool)
    (hs : m.Sound (List.replicate (holds c) id ++ rest)) :
    (handler m id (ok && w.keepAlive)).Sound (List.replicate
      (holds (HttpConnections.next (clientProcessor residue) c (.writeDone w ok))) id ++
        rest) := by
  have hpos := List.length_pos_of_mem hw
  have hlen := List.length_erase_of_mem hw
  obtain ⟨hone, hc, hh⟩ := holds_of_operation h (by omega)
  have ht := h.session.token
  simp only [SimpleSession.tokens, hc, List.length_nil] at ht
  have hnext : holds (HttpConnections.next (clientProcessor residue) c (.writeDone w ok)) =
      (ok && w.keepAlive).toNat := by
    refine (holds_of_not_hung hh).trans ?_
    cases ok with
    | false =>
      simp only [SimpleSession.next, SimpleSession.responseStatus, hc, if_true, List.length_nil,
        Bool.false_and, Bool.toNat_false]
      omega
    | true =>
      cases hk : w.keepAlive with
      | false =>
        simp only [SimpleSession.next, SimpleSession.responseStatus, hk, SimpleSession.endSession,
          hc, Bool.true_eq_false, Bool.false_eq_true, if_false, List.length_nil, Bool.and_false,
          Bool.toNat_false]
        omega
      | true =>
        simp only [SimpleSession.next, SimpleSession.responseStatus, hk, SimpleSession.readStream,
          hc, Bool.true_eq_false, if_false, if_true, List.length_nil, Bool.and_true,
          Bool.toNat_true]
        omega
  rw [hone] at hs
  rw [hnext]
  exact handler_sound hs _

theorem act_sound (h : HttpConnections.Invariant (clientProcessor residue) c)
    {e : HttpConnections.Event World} (he : HttpConnections.Enabled c e)
    (hs : m.Sound (List.replicate (holds c) id ++ rest)) :
    (act residue copies c m id e).Sound (List.replicate
      (holds (HttpConnections.next (clientProcessor residue) c e)) id ++
        (keeps residue copies c m e ++ rest)) := by
  cases e with
  | dispatch => exact dispatch_holds h he.2 hs
  | readDone result left => exact readDone_holds h he.2 hs result left
  | respond w => exact respond_holds h he.1 he.2 hs
  | writeDone w ok => exact writeDone_holds h he.2 ok hs

theorem hung_next (copies : World → Request → ℕ) (m : Memory Object) (id : ℕ)
    (h : HttpConnections.Invariant (clientProcessor residue) c)
    {e : HttpConnections.Event World} (he : HttpConnections.Enabled c e) :
    hung c = false ∧ (hung (HttpConnections.next (clientProcessor residue) c e) = true ↔
      keeps residue copies c m e ≠ []) ∧
    ∀ j ∈ keeps residue copies c m e,
      (act residue copies c m id e).heap.fixed j = some (.finalizer, some id) := by
  cases e with
  | dispatch | readDone result left | writeDone w ok =>
    have hpos : 0 < c.session.dispatched + c.session.reads + c.session.writes.length := by
      rcases HttpConnections.enabled_operation he with hpos | ⟨⟨w, hw⟩, _⟩
      · exact hpos
      · cases hw
    have hh := (holds_of_operation h hpos).2.2
    refine ⟨hh, ?_, fun j hj => by cases hj⟩
    exact iff_of_false (fun hn => absurd (hh.symm.trans hn) (by decide)) (fun hn => hn rfl)
  | respond w =>
    obtain ⟨⟨k, request⟩, hl⟩ := Option.isSome_iff_exists.mp he.2
    have hh := not_hung he.1
    refine ⟨hh, ?_, ?_⟩
    · simp only [keeps, hl, stalls, HttpConnections.next]
      rcases (clientProcessor residue).once w request with ⟨hended, r, hr, _⟩ | ⟨hended, _⟩
      · rw [HttpConnections.respond_returned hl hended hr, hended]
        refine iff_of_false (fun hn => ?_) (by simp)
        exact absurd (hh.symm.trans hn) (by decide)
      · rw [HttpConnections.respond_unreturned hl hended]
        simp [hung]
    · intro j hj
      simp only [keeps, hl] at hj
      simp only [act, hl]
      exact (mem_stalls hj).2

end Events

theorem held_append {connections : List (HttpConnections.State World)} {sessions : List ℕ}
    (hlen : sessions.length = connections.length) (id : ℕ) :
    held (connections ++ [HttpConnections.startSession]) (sessions ++ [id]) =
      held connections sessions ++ [id] := by
  rw [held, List.zipWith_append hlen.symm, List.flatten_append]
  rfl

theorem Invariant.accepting (h : Invariant residue succeeds s)
    (he : 0 < s.server.listener.accepts) :
    s.memory.Sound (SessionMemory.listener :: (held s.server.connections s.sessions ++ (s.stalled ++
      (List.replicate (s.server.listener.accepts - 1) SessionMemory.listener ++
        [SessionMemory.resolver])))) := by
  obtain ⟨n, hn⟩ := Nat.exists_eq_succ_of_ne_zero (Nat.ne_of_gt he)
  apply h.sound.perm
  rw [roots, hn, List.replicate_succ, List.cons_append, Nat.succ_sub_one, ← List.append_assoc,
    ← List.append_assoc]
  exact List.perm_middle

theorem accept_error_invariant (copies : World → Request → ℕ) (h : Invariant residue succeeds s)
    {code : ι}
    (he : (ClientServer.server residue succeeds).Enabled s.server (.accept (.error code))) :
    Invariant residue succeeds (next residue copies s (.accept (.error code))) := by
  have hfixed := runHandlerOnSocket_fixed (m := s.memory)
  refine ⟨h.server.next he, ?_, h.placed, h.distinct, ?_, ?_, ?_, ?_, ?_, ?_⟩
  · exact runHandlerOnSocket_error (h.accepting he.2.2)
  · exact (hfixed _).trans h.resolver
  · exact (hfixed _).trans h.listener
  · exact fun id hid => (hfixed id).trans (h.session id hid)
  · exact fun j x hj => h.made j x ((hfixed j).symm.trans hj)
  · intro j hj
    obtain ⟨id, hf, hs⟩ := h.stalled j hj
    exact ⟨id, (hfixed j).trans hf, hs⟩
  · intro id hs
    obtain ⟨j, hj, hf⟩ := h.kept id hs
    exact ⟨j, hj, (hfixed j).trans hf⟩

theorem stalled_accept (copies : World → Request → ℕ) (h : Invariant residue succeeds s)
    (socket : κ) (id : ℕ) :
    Stalled (next residue copies s (.accept (.ok socket))) id ↔ Stalled s id := by
  constructor
  · rintro ⟨i, c, hid, hc, hh⟩
    change (s.sessions ++ [_])[i]? = some id at hid
    change (s.server.connections ++ [_])[i]? = some c at hc
    rcases Nat.lt_or_ge i s.sessions.length with hlt | hge
    · rw [List.getElem?_append_left hlt] at hid
      rw [List.getElem?_append_left (h.placed ▸ hlt)] at hc
      exact ⟨i, c, hid, hc, hh⟩
    · rw [List.getElem?_append_right (h.placed ▸ hge), List.getElem?_singleton] at hc
      split at hc
      · obtain rfl := Option.some.inj hc
        cases hh
      · cases hc
  · rintro ⟨i, c, hid, hc, hh⟩
    have hlt := (List.getElem?_eq_some_iff.mp hid).1
    refine ⟨i, c, ?_, ?_, hh⟩
    · exact (List.getElem?_append_left hlt).trans hid
    · exact (List.getElem?_append_left (h.placed ▸ hlt)).trans hc

theorem accept_ok_invariant (copies : World → Request → ℕ) (h : Invariant residue succeeds s)
    {socket : κ}
    (he : (ClientServer.server residue succeeds).Enabled s.server (.accept (.ok socket))) :
    Invariant residue succeeds (next residue copies s (.accept (.ok socket))) := by
  have hgrows : Memory.Grows (.session, some resolver) s.memory
      (runHandlerOnSocket s.memory true) := .of_make runHandlerOnSocket_made
  have hfresh : s.memory.heap.cells.length ∉ s.sessions := fun hm =>
    Nat.lt_irrefl _ (Heap.fixed_lt_length (h.session _ hm))
  refine ⟨h.server.next he, ?_, ?_, ?_, hgrows.kept _ _ h.resolver, hgrows.kept _ _ h.listener,
    ?_, ?_, ?_, ?_⟩
  · apply (runHandlerOnSocket_ok (h.accepting he.2.2.1) (by simp)).perm
    change List.Perm _ (held (s.server.connections ++ [_]) (s.sessions ++ [_]) ++ (s.stalled ++
      (listener :: List.replicate (s.server.listener.accepts - 1) listener ++ _)))
    rw [held_append h.placed, List.perm_iff_count]
    intro j
    simp only [List.count_append, List.count_cons, List.count_nil]
    omega
  · change (s.sessions ++ [_]).length = (s.server.connections ++ [_]).length
    rw [List.length_append, List.length_append, h.placed]
    rfl
  · apply List.nodup_append.mpr
    refine ⟨h.distinct, List.nodup_singleton _, ?_⟩
    intro a ha b hb hab
    rw [List.mem_singleton.mp hb] at hab
    exact hfresh (hab ▸ ha)
  · intro id hid
    rcases List.mem_append.mp hid with hold | hnew
    · exact hgrows.kept _ _ (h.session id hold)
    · obtain rfl := List.mem_singleton.mp hnew
      change (runHandlerOnSocket s.memory true).heap.fixed _ = _
      rw [runHandlerOnSocket_made, Heap.fixed_make, if_pos rfl]
  · intro j x hj
    rcases hgrows.made j x hj with hold | ⟨rfl, rfl⟩
    · exact (h.made j x hold).mono fun id hid => List.mem_append_left _ hid
    · exact ⟨List.mem_append_right _ (List.mem_singleton_self _), rfl⟩
  · intro j hj
    obtain ⟨id, hf, hs⟩ := h.stalled j hj
    exact ⟨id, hgrows.kept _ _ hf, (stalled_accept copies h socket id).mpr hs⟩
  · intro id hs
    obtain ⟨j, hj, hf⟩ := h.kept id ((stalled_accept copies h socket id).mp hs)
    exact ⟨j, hj, hgrows.kept _ _ hf⟩

theorem stalled_act {i : ℕ} {e : HttpConnections.Event World}
    {c : HttpConnections.State World} (hc : s.server.connections[i]? = some c) {id : ℕ}
    (hid : s.sessions[i]? = some id) (hh : hung c = false) (j : ℕ) :
    Stalled (next residue copies s (.act i e)) j ↔ Stalled s j ∨
      j = id ∧ hung (HttpConnections.next (clientProcessor residue) c e) = true := by
  have hconnections : (next residue copies s (.act i e)).server.connections =
    s.server.connections.modify i (HttpConnections.next (clientProcessor residue) · e) := rfl
  constructor
  · rintro ⟨k, d, hj, hd, hdh⟩
    rw [hconnections] at hd
    by_cases hk : i = k
    · subst hk
      rw [List.getElem?_modify_eq, hc] at hd
      obtain rfl := Option.some.inj hd
      exact Or.inr ⟨Option.some.inj (hj.symm.trans hid), hdh⟩
    · rw [List.getElem?_modify_ne _ _ hk] at hd
      exact Or.inl ⟨k, d, hj, hd, hdh⟩
  · rintro (⟨k, d, hj, hd, hdh⟩ | ⟨rfl, hdh⟩)
    · refine ⟨k, d, hj, ?_, hdh⟩
      have hk : i ≠ k := by
        rintro rfl
        obtain rfl := Option.some.inj (hc.symm.trans hd)
        exact absurd (hh.symm.trans hdh) (by decide)
      rw [hconnections, List.getElem?_modify_ne _ _ hk]
      exact hd
    · refine ⟨i, _, hid, ?_, hdh⟩
      rw [hconnections, List.getElem?_modify_eq, hc]
      rfl

theorem memory_act {i : ℕ} {e : HttpConnections.Event World} {c : HttpConnections.State World}
    (hc : s.server.connections[i]? = some c) {id : ℕ} (hid : s.sessions[i]? = some id) :
    (next residue copies s (.act i e)).memory = act residue copies c s.memory id e ∧
      (next residue copies s (.act i e)).stalled =
        s.stalled ++ keeps residue copies c s.memory e := by
  simp only [next, hc, hid, and_self]

theorem roots_act_sound (hs : s.memory.Sound (roots s)) {i : ℕ} {e : HttpConnections.Event World}
    {c : HttpConnections.State World} (hc : s.server.connections[i]? = some c) {id : ℕ}
    (hid : s.sessions[i]? = some id)
    (hinv : HttpConnections.Invariant (clientProcessor residue) c)
    (hce : HttpConnections.Enabled c e) :
    (next residue copies s (.act i e)).memory.Sound
      (roots (next residue copies s (.act i e))) := by
  obtain ⟨rest, hp, hm⟩ := flatten_zipWith_modify (fun c id => List.replicate (holds c) id) hc hid
  obtain ⟨hmem, hkeeps⟩ : (next residue copies s (.act i e)).memory =
        act residue copies c s.memory id e ∧
      (next residue copies s (.act i e)).stalled =
        s.stalled ++ keeps residue copies c s.memory e := memory_act hc hid
  rw [hmem, roots, hkeeps]
  have hperm := hs.perm (hp.append_right _)
  rw [List.append_assoc] at hperm
  apply (act_sound hinv hce hperm).perm
  rw [List.perm_iff_count]
  intro j
  have hj := (hm (HttpConnections.next (clientProcessor residue) · e)).count_eq j
  change (held (s.server.connections.modify i _) s.sessions).count j = _ at hj
  simp only [List.count_append] at hj ⊢
  change _ = (held (s.server.connections.modify i _) s.sessions).count j + _
  rw [hj]
  simp only [next, ClientServer.next]
  omega

theorem act_invariant (h : Invariant residue succeeds s) {i : ℕ} {e : HttpConnections.Event World}
    (he : (ClientServer.server residue succeeds).Enabled s.server (.act i e)) :
    Invariant residue succeeds (next residue copies s (.act i e)) := by
  have hserver := h.server.next he
  obtain ⟨_, _, c, hc, hce⟩ := he
  have hi : i < s.sessions.length := by
    rw [h.placed]
    exact (List.getElem?_eq_some_iff.mp hc).1
  have hid : s.sessions[i]? = some s.sessions[i] := List.getElem?_eq_getElem hi
  have hinv := ClientServer.connection_invariant h.server (List.mem_of_getElem? hc)
  have hgrows := act_grows residue copies c s.memory s.sessions[i] e
  obtain ⟨hmem, hkeeps⟩ : (next residue copies s (.act i e)).memory =
        act residue copies c s.memory s.sessions[i] e ∧
      (next residue copies s (.act i e)).stalled =
        s.stalled ++ keeps residue copies c s.memory e := memory_act hc hid
  obtain ⟨hh, hhung, hfinalizer⟩ := hung_next copies s.memory s.sessions[i] hinv hce
  have hstalled : ∀ j, Stalled (next residue copies s (.act i e)) j ↔ Stalled s j ∨
      j = s.sessions[i] ∧ hung (HttpConnections.next (clientProcessor residue) c e) = true :=
    stalled_act hc hid hh
  refine ⟨hserver, ?_, ?_, h.distinct, ?_, ?_, ?_, ?_, ?_, ?_⟩
  · exact roots_act_sound h.sound hc hid hinv hce
  · exact h.placed.trans (List.length_modify _ _ _).symm
  · rw [hmem]
    exact hgrows.kept _ _ h.resolver
  · rw [hmem]
    exact hgrows.kept _ _ h.listener
  · intro id hid
    rw [hmem]
    exact hgrows.kept _ _ (h.session id hid)
  · intro j x hj
    rw [hmem] at hj
    rcases hgrows.made j x hj with hold | ⟨_, rfl⟩
    · exact h.made j x hold
    · exact ⟨_, List.getElem_mem hi, rfl⟩
  · intro j hj
    rw [hkeeps] at hj
    rw [hmem]
    rcases List.mem_append.mp hj with hold | hnew
    · obtain ⟨id, hf, hs⟩ := h.stalled j hold
      exact ⟨id, hgrows.kept _ _ hf, (hstalled id).mpr (Or.inl hs)⟩
    · exact ⟨_, hfinalizer j hnew,
        (hstalled _).mpr (Or.inr ⟨rfl, hhung.mpr (List.ne_nil_of_mem hnew)⟩)⟩
  · intro id hs
    rw [hkeeps, hmem]
    rcases (hstalled id).mp hs with hold | ⟨rfl, hnew⟩
    · obtain ⟨j, hj, hf⟩ := h.kept id hold
      exact ⟨j, List.mem_append_left _ hj, hgrows.kept _ _ hf⟩
    · obtain ⟨j, hj⟩ := List.exists_mem_of_ne_nil _ (hhung.mp hnew)
      exact ⟨j, List.mem_append_right _ hj, hfinalizer j hj⟩

theorem invariant_inductive :
    Inductive (lifetimes (κ := κ) (ι := ι) residue copies succeeds)
      (Invariant residue succeeds) where
  initial := start_invariant
  step := by
    intro s e h he
    cases e with
    | accept result =>
      cases result with
      | error code => exact accept_error_invariant copies h he
      | ok socket => exact accept_ok_invariant copies h he
    | act i e => exact act_invariant h he

theorem Invariant.notMem_sessions (h : Invariant residue succeeds s) {j : ℕ} {object : Object}
    {g : Option ℕ} (hj : s.memory.heap.fixed j = some (object, g)) (hne : object ≠ .session) :
    j ∉ s.sessions := by
  intro hmem
  rw [h.session j hmem] at hj
  exact hne (congrArg Prod.fst (Option.some.inj hj)).symm

theorem Invariant.root (h : Invariant residue succeeds s) {j : ℕ} (hj : j ∈ roots s) :
    j ∈ s.stalled ∨ ∃ x, s.memory.heap.fixed j = some x ∧ x.1 ≠ .finalizer := by
  rcases List.mem_append.mp hj with hheld | hj
  · exact Or.inr ⟨_, h.session j (mem_of_mem_held hheld), by decide⟩
  rcases List.mem_append.mp hj with hstalled | hj
  · exact Or.inl hstalled
  rcases List.mem_append.mp hj with hlistener | hresolver
  · rw [List.eq_of_mem_replicate hlistener]
    exact Or.inr ⟨_, h.listener, by decide⟩
  · rw [List.mem_singleton.mp hresolver]
    exact Or.inr ⟨_, h.resolver, by decide⟩

theorem Invariant.notMem_stalled (h : Invariant residue succeeds s) {j : ℕ} {object : Object}
    {g : Option ℕ} (hj : s.memory.heap.fixed j = some (object, g)) (hne : object ≠ .finalizer) :
    j ∉ s.stalled := by
  intro hmem
  obtain ⟨id, hf, _⟩ := h.stalled j hmem
  rw [hf] at hj
  exact hne (congrArg Prod.fst (Option.some.inj hj)).symm

/-- Only a finalizer keeps a session alive, and nothing keeps the listener or a finalizer. -/
theorem Invariant.guard (h : Invariant residue succeeds s) {k j : ℕ}
    (hg : s.memory.heap.Guards k j) :
    (j = SessionMemory.resolver ∧ k ∈ s.sessions) ∨
      j ∈ s.sessions ∧ ∃ g, s.memory.heap.fixed k = some (.finalizer, g) := by
  obtain ⟨object, hk⟩ := hg
  have hmade := h.made k _ hk
  cases object with
  | resolver => cases hmade.2
  | listener => cases hmade.2
  | session => exact .inl ⟨Option.some.inj hmade.2, hmade.1⟩
  | finalizer =>
    obtain ⟨id, hid, hg⟩ := hmade
    exact .inr ⟨Option.some.inj hg ▸ hid, _, hk⟩

theorem Invariant.unguarded (h : Invariant residue succeeds s) {j : ℕ} {object : Object}
    {g : Option ℕ} (hj : s.memory.heap.fixed j = some (object, g))
    (hobject : object = .listener ∨ object = .finalizer) : s.memory.heap.guardians j = 0 := by
  rw [Heap.guardians_eq_zero_iff]
  intro k hk
  exfalso
  rcases h.guard hk with ⟨rfl, _⟩ | ⟨hmem, _⟩
  · rw [h.resolver] at hj
    cases hj
    simp at hobject
  · rw [h.session j hmem] at hj
    cases hj
    simp at hobject

theorem Invariant.finalizer_used_iff (h : Invariant residue succeeds s) {j : ℕ} {g : Option ℕ}
    (hj : s.memory.heap.fixed j = some (.finalizer, g)) :
    0 < s.memory.heap.uses j ↔ j ∈ s.stalled := by
  rw [h.sound.heap.counted, h.unguarded hj (.inr rfl), Nat.add_zero, List.count_pos_iff]
  constructor
  · intro hmem
    rcases h.root hmem with hs | ⟨x, hx, hne⟩
    · exact hs
    · rw [hj] at hx
      exact absurd (Option.some.inj hx ▸ rfl) hne
  · intro hs
    exact List.mem_append_right _ (List.mem_append_left _ hs)

/-- The references to a session: those of its connection, and one in the finalizer of a call
without end. -/
theorem Invariant.session_uses (h : Invariant residue succeeds s) {i id : ℕ}
    {c : HttpConnections.State World} (hc : s.server.connections[i]? = some c)
    (hid : s.sessions[i]? = some id) :
    holds c ≤ s.memory.heap.uses id ∧ (hung c = false → s.memory.heap.uses id = holds c) := by
  have hmem := List.mem_of_getElem? hid
  have hsession := h.session id hmem
  have hstalled := h.notMem_stalled hsession (by decide)
  have hlistener : id ∉ List.replicate s.server.listener.accepts SessionMemory.listener := by
    intro hrep
    rw [List.eq_of_mem_replicate hrep] at hmem
    exact h.notMem_sessions h.listener (by decide) hmem
  have hresolver : id ∉ [SessionMemory.resolver] := by
    intro hrep
    rw [List.mem_singleton.mp hrep] at hmem
    exact h.notMem_sessions h.resolver (by decide) hmem
  have hcounted : s.memory.heap.uses id = holds c + s.memory.heap.guardians id := by
    rw [h.sound.heap.counted, roots, List.count_append, List.count_append, List.count_append,
      count_held h.distinct hc hid, List.count_eq_zero_of_not_mem hstalled,
      List.count_eq_zero_of_not_mem hlistener, List.count_eq_zero_of_not_mem hresolver]
    rfl
  refine ⟨hcounted ▸ Nat.le_add_right _ _, fun hh => ?_⟩
  have hguardians : s.memory.heap.guardians id = 0 := by
    rw [Heap.guardians_eq_zero_iff]
    intro k hk
    rcases h.guard hk with ⟨rfl, _⟩ | ⟨_, g, hg⟩
    · exact absurd (List.mem_singleton_self _) hresolver
    · by_contra hpos
      have hks := (h.finalizer_used_iff hg).mp (Nat.pos_of_ne_zero hpos)
      obtain ⟨other, hf, n, d, hn, hd, hdh⟩ := h.stalled k hks
      obtain ⟨object, hk⟩ := hk
      obtain rfl : other = id := by
        have heq := Option.some.inj (hf.symm.trans hk)
        exact Option.some.inj (congrArg Prod.snd heq)
      obtain rfl : n = i := (List.getElem?_inj (List.getElem?_eq_some_iff.mp hn).1
        h.distinct).mp (hn.trans hid.symm)
      obtain rfl := Option.some.inj (hc.symm.trans hd)
      exact absurd (hh.symm.trans hdh) (by decide)
  rw [hcounted, hguardians, Nat.add_zero]

theorem Invariant.listener_uses (h : Invariant residue succeeds s) :
    s.memory.heap.uses SessionMemory.listener = s.server.listener.accepts := by
  have hheld : SessionMemory.listener ∉ held s.server.connections s.sessions := fun hmem =>
    h.notMem_sessions h.listener (by decide) (mem_of_mem_held hmem)
  have hstalled := h.notMem_stalled h.listener (by decide)
  rw [h.sound.heap.counted, h.unguarded h.listener (.inl rfl), roots, List.count_append,
    List.count_append, List.count_append, List.count_eq_zero_of_not_mem hheld,
    List.count_eq_zero_of_not_mem hstalled, List.count_replicate_self]
  simp [SessionMemory.listener, SessionMemory.resolver]

theorem Invariant.guards_resolver_iff (h : Invariant residue succeeds s) {k : ℕ} :
    s.memory.heap.Guards k SessionMemory.resolver ↔ k ∈ s.sessions := by
  constructor
  · intro hk
    rcases h.guard hk with ⟨_, hmem⟩ | ⟨hmem, _⟩
    · exact hmem
    · exact absurd hmem (h.notMem_sessions h.resolver (by decide))
  · intro hk
    exact ⟨_, h.session k hk⟩

theorem Invariant.resolver_uses (h : Invariant residue succeeds s) :
    s.memory.heap.uses SessionMemory.resolver =
      1 + s.sessions.countP (· ∉ s.memory.heap.destroyed) := by
  have hguardians : s.memory.heap.guardians SessionMemory.resolver =
      (s.sessions.filter (· ∉ s.memory.heap.destroyed)).length := by
    apply Heap.guardians_eq_length (h.distinct.filter _)
    intro j
    rw [List.mem_filter, h.guards_resolver_iff, and_comm]
    apply and_congr_left
    intro hj
    have hlt := Heap.fixed_lt_length (h.session j hj)
    rw [decide_eq_true_eq, h.sound.heap.ended]
    omega
  have hlistener : SessionMemory.resolver ∉
      List.replicate s.server.listener.accepts SessionMemory.listener := fun hmem =>
    absurd (List.eq_of_mem_replicate hmem) (by decide)
  rw [h.sound.heap.counted, hguardians, roots, List.count_append, List.count_append,
    List.count_append, List.count_eq_zero_of_not_mem fun hm =>
      h.notMem_sessions h.resolver (by decide) (mem_of_mem_held hm),
    List.count_eq_zero_of_not_mem (h.notMem_stalled h.resolver (by decide)),
    List.count_eq_zero_of_not_mem hlistener, ← List.countP_eq_length_filter,
    List.count_singleton_self]

/-- When the objects of the server go. -/
structure Lifetimes (s : State κ ι) : Prop where
  unmisused : s.memory.misused = false
  placed : s.sessions.length = s.server.connections.length
  session : ∀ (i id : ℕ) (c : HttpConnections.State World), s.server.connections[i]? = some c →
    s.sessions[i]? = some id → (id ∈ s.memory.heap.destroyed ↔ c.session.closed = true)
  listener : listener ∈ s.memory.heap.destroyed ↔ s.server.listener.accepts = 0
  finalizer : ∀ j g, s.memory.heap.fixed j = some (.finalizer, g) →
    j ∈ s.memory.heap.destroyed ∨ ∃ id, g = some id ∧ Stalled s id
  stalled : ∀ id, Stalled s id →
    ∃ j, s.memory.heap.fixed j = some (.finalizer, some id) ∧ j ∉ s.memory.heap.destroyed
  resolver : s.memory.heap.uses resolver = 1 + s.sessions.countP (· ∉ s.memory.heap.destroyed)
  once : s.memory.heap.destroyed.Nodup
  ordered : ∀ a b j id, s.memory.heap.destroyed = a ++ id :: b →
    s.memory.heap.fixed j = some (.finalizer, some id) → j ∈ a

theorem Invariant.lifetimes (h : Invariant residue succeeds s) : Lifetimes s where
  unmisused := h.sound.unmisused
  placed := h.placed
  session i id c hc hid := by
    have hinv := ClientServer.connection_invariant h.server (List.mem_of_getElem? hc)
    have hlt := Heap.fixed_lt_length (h.session id (List.mem_of_getElem? hid))
    have hholds := holds_eq hinv
    have ht := hinv.session.token
    simp only [SimpleSession.tokens] at ht
    obtain ⟨hle, huses⟩ := h.session_uses hc hid
    rw [h.sound.heap.ended]
    cases hh : hung c with
    | true =>
      obtain ⟨hopen, hone⟩ := hung_open hinv hh
      refine iff_of_false (fun hd => ?_) (by simp [hopen])
      omega
    | false =>
      rw [huses hh]
      rw [hh, Bool.toNat_false] at hholds
      cases hclosed : c.session.closed with
      | false =>
        simp only [hclosed, Bool.toNat_false] at hholds
        simp
        omega
      | true =>
        simp only [hclosed, Bool.toNat_true] at hholds ht
        simp only [hlt, true_and, iff_true]
        omega
  listener := by
    have hlt := Heap.fixed_lt_length h.listener
    rw [h.sound.heap.ended, h.listener_uses]
    exact and_iff_right hlt
  finalizer j g hj := by
    by_cases hs : j ∈ s.stalled
    · obtain ⟨id, hf, hstalled⟩ := h.stalled j hs
      exact Or.inr ⟨id, congrArg Prod.snd (Option.some.inj (hj.symm.trans hf)), hstalled⟩
    · refine Or.inl ((h.sound.heap.ended j).mpr ⟨Heap.fixed_lt_length hj, ?_⟩)
      exact Nat.eq_zero_of_not_pos (mt (h.finalizer_used_iff hj).mp hs)
  stalled id hs := by
    obtain ⟨j, hj, hf⟩ := h.kept id hs
    exact ⟨j, hf, h.sound.heap.notMem_destroyed ((h.finalizer_used_iff hf).mpr hj)⟩
  resolver := h.resolver_uses
  once := h.sound.heap.nodup
  ordered a b j id hd hj := h.sound.heap.ordered a id b hd j ⟨_, hj⟩

theorem server_lifted (copies : World → Request → ℕ) {es : List (ClientServer.Event κ ι)}
    {t : ClientServer.State κ ι}
    (h : Execution (ClientServer.server residue succeeds) (ClientServer.start succeeds) es t) :
    ∃ s, Execution (lifetimes residue copies succeeds) (start succeeds) es s ∧ s.server = t := by
  induction h with
  | refl => exact ⟨_, .refl _, rfl⟩
  | @tail es t e _ he ih =>
    obtain ⟨s, hs, rfl⟩ := ih
    refine ⟨_, .tail hs he, ?_⟩
    cases e with
    | accept result => rfl
    | act i e => rfl

/-- The objects follow the connections in every run of the server: a session lives until its
connection is closed, the listener until its loop is broken, a finalizer beyond its request only
where the call goes on without end, and nothing is used after its end. -/
theorem objects_follow_connections (copies : World → Request → ℕ)
    {es : List (ClientServer.Event κ ι)} {t : ClientServer.State κ ι}
    (h : Execution (ClientServer.server residue succeeds) (ClientServer.start succeeds) es t) :
    ∃ s, Execution (lifetimes residue copies succeeds) (start succeeds) es s ∧ s.server = t ∧
      Lifetimes s := by
  obtain ⟨s, hs, ht⟩ := server_lifted copies h
  exact ⟨s, hs, ht, (invariant_inductive.reachable ⟨es, hs⟩).lifetimes⟩

theorem objects_follow_connections_overlapped :
    ∃ s, Execution (lifetimes id (fun _ _ => 1) fun _ => true) (start fun _ => true)
        (ClientServer.overlapping ⟨shortNames, MessageProcessing.emptyHost⟩) s ∧
      s.server = ClientServer.overlapped ∧ Lifetimes s :=
  objects_follow_connections (fun _ _ => 1) ClientServer.overlapped_execution

end SessionLifetime
