import Cur8or.MessageProcessing
import Cur8or.SimpleSession

/-! One connection of the server: the callback loop of a session whose loader is a message
processor. The processor is called with the request just read, works in whatever state the world
is in at that moment, and while it works other connections may move. -/
namespace HttpConnections

open HttpResponses MessageProcessing PathResolver TransitionSystem
open SimpleSession (ReadResult PendingWrite)

/-- A call either answers once and returns, or does not return and leaves the request unanswered. -/
structure Processor (ω : Type*) where
  call : ω → Request → Processing
  once : ∀ w m,
    ((call w m).ended = .returned ∧ ∃ r, (call w m).responses = [r] ∧ r.Carries m) ∨
    ((call w m).ended ≠ .returned ∧ (call w m).responses = [])

/-- `loading` is the call of `loader_` under way, with the number of the callback it was given,
and `unreturned` the one that does not return, with what becomes of it instead. The calls
`processed` and the responses on the `wire`, whose writes are complete, are histories. -/
structure State (ω : Type*) where
  session : SimpleSession.State Request Response
  loading : Option (ℕ × Request)
  unreturned : Option ((ω × Request) × Completion)
  processed : List (ω × Request)
  wire : List Response

variable {ω : Type*} {p : Processor ω} {s : State ω}

def startSession : State ω :=
  ⟨SimpleSession.startSession SimpleSession.fresh, none, none, [], []⟩

/-- `loader_(std::move(request_), ...)` is entered here and left in `respond`. -/
def processRequest (s : State ω) (result : ReadResult Request) (residue : List Request) :
    State ω :=
  { s with
    session := SimpleSession.next Response.keepAlive s.session (.readDone result residue none)
    loading :=
      match result with
      | .received m => some (s.session.handed.length, m)
      | _ => s.loading }

def respond (p : Processor ω) (s : State ω) (w : ω) : State ω :=
  match s.loading with
  | none => s
  | some (k, m) =>
    if (p.call w m).ended = .returned then
      { s with
        session := (p.call w m).responses.foldl
          (SimpleSession.sendResponse Response.keepAlive · k ·) s.session
        loading := none
        processed := s.processed ++ [(w, m)] }
    else { s with unreturned := some ((w, m), (p.call w m).ended) }

/-- A write that failed may have put any part of its response on the wire; only the others
count. -/
def responseStatus (s : State ω) (w : PendingWrite) (ok : Bool) : State ω :=
  { s with
    session := SimpleSession.next Response.keepAlive s.session (.writeDone w ok)
    wire := s.wire ++ if ok then (s.session.answers.lookup w.request).toList else [] }

inductive Event (ω : Type*) where
  | dispatch
  | readDone (result : ReadResult Request) (residue : List Request)
  | respond (w : ω)
  | writeDone (w : PendingWrite) (ok : Bool)

/-- A call without end takes its thread with it, every other one that does not return the
program. -/
def State.alive (s : State ω) : Prop := ∀ q ∈ s.unreturned, q.2 = .endless

instance (s : State ω) : Decidable s.alive := inferInstanceAs (Decidable (∀ _ ∈ _, _))

def State.stuck (s : State ω) : Bool := s.unreturned.isSome

def Enabled (s : State ω) : Event ω → Prop
  | .dispatch => s.alive ∧ 0 < s.session.dispatched
  | .readDone _ _ => s.alive ∧ 0 < s.session.reads
  | .respond _ => s.stuck = false ∧ s.loading.isSome = true
  | .writeDone w _ => s.alive ∧ w ∈ s.session.writes

instance (s : State ω) : (e : Event ω) → Decidable (Enabled s e)
  | .dispatch => inferInstanceAs (Decidable (_ ∧ _))
  | .readDone _ _ => inferInstanceAs (Decidable (_ ∧ _))
  | .respond _ => inferInstanceAs (Decidable (_ ∧ _))
  | .writeDone _ _ => inferInstanceAs (Decidable (_ ∧ _))

def next (p : Processor ω) (s : State ω) : Event ω → State ω
  | .dispatch =>
    { s with session := SimpleSession.next Response.keepAlive s.session .dispatch }
  | .readDone result residue => processRequest s result residue
  | .respond w => respond p s w
  | .writeDone w ok => responseStatus s w ok

def connection (p : Processor ω) : System (State ω) (Event ω) where
  initial := startSession
  Enabled := Enabled
  next := next p

instance (p : Processor ω) (s : State ω) (e : Event ω) :
    Decidable ((connection p).Enabled s e) := inferInstanceAs (Decidable (Enabled s e))

theorem unreturned_of_not_stuck (h : s.stuck = false) : s.unreturned = none :=
  Option.not_isSome_iff_eq_none.mp (Bool.eq_false_iff.mp h)

theorem respond_returned {w : ω} {k : ℕ} {m : Request} {r : Response}
    (hl : s.loading = some (k, m)) (he : (p.call w m).ended = .returned)
    (hr : (p.call w m).responses = [r]) :
    respond p s w = { s with
      session := SimpleSession.sendResponse Response.keepAlive s.session k r
      loading := none
      processed := s.processed ++ [(w, m)] } := by
  simp only [respond, hl, he, hr, if_true, List.foldl_cons, List.foldl_nil]

theorem respond_unreturned {w : ω} {k : ℕ} {m : Request} (hl : s.loading = some (k, m))
    (he : (p.call w m).ended ≠ .returned) :
    respond p s w = { s with unreturned := some ((w, m), (p.call w m).ended) } := by
  simp only [respond, hl, if_neg he]

def Answers (p : Processor ω) (q : ω × Request) (r : Response) : Prop :=
  (p.call q.1 q.2).ended = .returned ∧ (p.call q.1 q.2).responses = [r] ∧ r.Carries q.2

/-- The wire carries the answers in order, all but the one a write is under way for or failed. -/
structure Written (s : State ω) : Prop where
  ordered : s.wire = (s.session.answers.map Prod.snd).take s.wire.length
  pending : s.session.failed = false →
    s.wire.length + s.session.writes.length = s.session.answers.length
  last : ∀ w ∈ s.session.writes, w.request = s.wire.length

structure Invariant (p : Processor ω) (s : State ω) : Prop where
  session : SimpleSession.Invariant Response.keepAlive s.session
  calling : s.session.callbacks = s.loading.toList.map Prod.fst
  arrived : s.session.arrived = s.processed.map Prod.snd ++ s.loading.toList.map Prod.snd
  answered : List.Forall₂ (Answers p) s.processed (s.session.answers.map Prod.snd)
  unreturned : ∀ q ∈ s.unreturned, q.2 ≠ .returned ∧ (p.call q.1.1 q.1.2).ended = q.2 ∧
    ∃ k, s.loading = some (k, q.1.2)
  written : Written s

theorem initial_invariant : Invariant p (startSession : State ω) :=
  ⟨SimpleSession.initial_invariant, rfl, rfl, .nil, by simp [startSession],
    ⟨rfl, fun _ => rfl, by simp [startSession, SimpleSession.startSession, SimpleSession.fresh]⟩⟩

theorem loading_none_of_read (h : Invariant p s) (hr : 0 < s.session.reads) :
    s.loading = none := by
  have ht := h.session.token
  have hc := congrArg List.length h.calling
  cases hl : s.loading with
  | none => rfl
  | some l =>
    simp only [hl, Option.toList_some, List.map_cons, List.map_nil, List.length_singleton] at hc
    simp only [SimpleSession.tokens] at ht
    omega

theorem unreturned_none_of_read (h : Invariant p s) (hr : 0 < s.session.reads) :
    s.unreturned = none := by
  cases hu : s.unreturned with
  | none => rfl
  | some q =>
    obtain ⟨_, _, k, hk⟩ := h.unreturned q hu
    exact absurd ((loading_none_of_read h hr).symm.trans hk) (by simp)

theorem readDone_invariant (h : Invariant p s) (hr : 0 < s.session.reads)
    (result : ReadResult Request) (residue : List Request) :
    Invariant p (processRequest s result residue) := by
  have hs := SimpleSession.readDone_invariant h.session hr result residue none
  have hl := loading_none_of_read h hr
  have hu := unreturned_none_of_read h hr
  have hc := h.calling
  have harrived := h.arrived
  rw [hl] at hc harrived
  cases result with
  | received m =>
    refine ⟨hs, ?_, ?_, h.answered, ?_, h.written.ordered, h.written.pending, h.written.last⟩
    · exact congrArg (s.session.handed.length :: ·) hc
    · change s.session.arrived ++ [m] = _
      rw [harrived, Option.toList_none, List.map_nil, List.append_nil]
      rfl
    · intro q hq
      exact absurd (hu.symm.trans hq) (by simp)
  | endOfStream =>
    exact ⟨hs, h.calling, h.arrived, h.answered, h.unreturned, h.written.ordered,
      h.written.pending, h.written.last⟩
  | failed =>
    refine ⟨hs, h.calling, h.arrived, h.answered, h.unreturned, h.written.ordered, ?_,
      h.written.last⟩
    intro hf
    cases hf

theorem respond_written (h : Invariant p s) {k : ℕ} (hk : k ∈ s.session.callbacks)
    (r : Response) (l : Option (ℕ × Request)) (qs : List (ω × Request)) :
    Written { s with
      session := SimpleSession.sendResponse Response.keepAlive s.session k r
      loading := l
      processed := qs } := by
  have ht := h.session.token
  have hpos := List.length_pos_of_mem hk
  obtain ⟨_, hf⟩ := SimpleSession.open_of_operation ht (by omega)
  have hw : s.session.writes = [] := by
    apply List.eq_nil_of_length_eq_zero
    simp only [SimpleSession.tokens] at ht
    omega
  have hlen := h.written.pending hf
  rw [hw, List.length_nil, Nat.add_zero] at hlen
  refine ⟨?_, ?_, ?_⟩
  · change s.wire = ((s.session.answers ++ [(k, r)]).map Prod.snd).take s.wire.length
    rw [List.map_append, List.take_append_of_le_length (by rw [List.length_map, hlen])]
    exact h.written.ordered
  · intro _
    change s.wire.length + (_ :: s.session.writes).length = (s.session.answers ++ [_]).length
    rw [hw, List.length_append, hlen]
    rfl
  · intro w hmem
    obtain rfl : w = ⟨k, r.keepAlive⟩ := by simpa [SimpleSession.sendResponse, hw] using hmem
    exact (h.session.fresh k hk).trans hlen.symm

theorem respond_invariant (h : Invariant p s) (w : ω) (hl : s.loading.isSome = true)
    (hstuck : s.stuck = false) : Invariant p (respond p s w) := by
  obtain ⟨⟨k, m⟩, hl⟩ := Option.isSome_iff_exists.mp hl
  have hu : s.unreturned = none := unreturned_of_not_stuck hstuck
  have hc := h.calling
  have harrived := h.arrived
  rw [hl] at hc harrived
  have hk : k ∈ s.session.callbacks := by simp [hc]
  rcases p.once w m with ⟨he, r, hr, hcarries⟩ | ⟨he, _⟩
  · rw [respond_returned hl he hr]
    refine ⟨SimpleSession.sendResponse_invariant h.session hk r, ?_, ?_, ?_, ?_,
      respond_written h hk r _ _⟩
    · change s.session.callbacks.erase k = []
      rw [hc]
      simp
    · change s.session.arrived = _
      rw [harrived]
      simp
    · simp only [SimpleSession.sendResponse, List.map_append, List.map_cons, List.map_nil]
      exact List.rel_append h.answered (.cons ⟨he, hr, hcarries⟩ .nil)
    · intro q hq
      exact absurd (hu.symm.trans hq) (by simp)
  · rw [respond_unreturned hl he]
    refine ⟨h.session, h.calling, h.arrived, h.answered, ?_, ?_⟩
    · intro q hq
      obtain rfl := Option.some.inj hq
      exact ⟨he, rfl, k, hl⟩
    · exact ⟨h.written.ordered, h.written.pending, h.written.last⟩

theorem writeDone_frame (t : SimpleSession.State Request Response) (w : PendingWrite)
    (ok : Bool) :
    let t' := SimpleSession.next Response.keepAlive t (.writeDone w ok)
    t'.callbacks = t.callbacks ∧ t'.arrived = t.arrived ∧ t'.answers = t.answers ∧
      t'.writes = t.writes.erase w ∧ (t'.failed = false → ok = true ∧ t.failed = false) := by
  simp only [SimpleSession.next, SimpleSession.responseStatus]
  split
  · exact ⟨rfl, rfl, rfl, rfl, fun hf => by cases hf⟩
  · next hok =>
    have hok : ok = true := Bool.of_not_eq_false hok
    split
    · exact ⟨rfl, rfl, rfl, rfl, fun hf => ⟨hok, hf⟩⟩
    · exact ⟨rfl, rfl, rfl, rfl, fun hf => ⟨hok, hf⟩⟩

theorem getElem_of_answer (h : Invariant p s) {k : ℕ} {r : Response}
    (hr : (k, r) ∈ s.session.answers) : (s.session.answers.map Prod.snd)[k]? = some r := by
  obtain ⟨i, hi⟩ := List.mem_iff_getElem?.mp hr
  have hk : (s.session.answers.map Prod.fst)[i]? = some k := by simp [hi]
  rw [h.session.ordered, List.getElem?_eq_some_iff] at hk
  obtain ⟨_, rfl⟩ := hk
  simpa using congrArg (Option.map Prod.snd) hi

theorem lookup_of_write (h : Invariant p s) {w : PendingWrite} (hw : w ∈ s.session.writes) :
    ∃ r, s.session.answers.lookup w.request = some r ∧
      (s.session.answers.map Prod.snd)[s.wire.length]? = some r := by
  obtain ⟨r, hr, _⟩ := h.session.bound w hw
  have hsome : (s.session.answers.lookup w.request).isSome = true :=
    List.lookup_isSome_iff.mpr ⟨_, hr, beq_self_eq_true _⟩
  obtain ⟨r', hr'⟩ := Option.isSome_iff_exists.mp hsome
  obtain ⟨before, after, happ, _⟩ := List.lookup_eq_some_iff.mp hr'
  refine ⟨r', hr', ?_⟩
  rw [← h.written.last w hw]
  apply getElem_of_answer h
  rw [happ]
  simp

theorem responseStatus_written (h : Invariant p s) {w : PendingWrite}
    (hw : w ∈ s.session.writes) (ok : Bool) : Written (responseStatus s w ok) := by
  obtain ⟨_, _, hanswers, hwrites, hfailed⟩ := writeDone_frame s.session w ok
  have ht := h.session.token
  have hpos := List.length_pos_of_mem hw
  have hone : s.session.writes.length = 1 := by
    simp only [SimpleSession.tokens] at ht
    omega
  have hnone : s.session.writes.erase w = [] := by
    apply List.eq_nil_of_length_eq_zero
    rw [List.length_erase_of_mem hw, hone]
  obtain ⟨r, hlookup, hget⟩ := lookup_of_write h hw
  refine ⟨?_, ?_, ?_⟩
  · simp only [responseStatus, hanswers]
    cases ok with
    | false => simpa using h.written.ordered
    | true =>
      simp only [if_true, hlookup, Option.toList_some, List.length_append, List.length_singleton]
      rw [List.take_add_one, hget, ← h.written.ordered]
      rfl
  · intro hf
    obtain ⟨rfl, hopen⟩ := hfailed hf
    have hlen := h.written.pending hopen
    simp only [responseStatus, if_true, hlookup, hanswers, hwrites, hnone, Option.toList_some,
      List.length_append, List.length_singleton, List.length_nil, Nat.add_zero]
    omega
  · intro v hv
    simp only [responseStatus, hwrites, hnone] at hv
    cases hv

theorem invariant_inductive : Inductive (connection p) (Invariant p) where
  initial := initial_invariant
  step := by
    intro s e h he
    cases e with
    | dispatch =>
      obtain ⟨_, hd⟩ := he
      exact ⟨SimpleSession.dispatch_invariant h.session hd, h.calling, h.arrived, h.answered,
        h.unreturned, h.written.ordered, h.written.pending, h.written.last⟩
    | readDone result residue => exact readDone_invariant h he.2 result residue
    | respond w => exact respond_invariant h w he.2 he.1
    | writeDone w ok =>
      obtain ⟨_, hw⟩ := he
      obtain ⟨hc, harrived, hanswers, _⟩ := writeDone_frame s.session w ok
      refine ⟨SimpleSession.writeDone_invariant h.session hw ok, ?_, ?_, ?_, h.unreturned,
        responseStatus_written h hw ok⟩
      · exact hc.trans h.calling
      · exact harrived.trans h.arrived
      · exact (congrArg (List.map Prod.snd) hanswers).symm ▸ h.answered

theorem reachable_invariant (h : Reachable (connection p) s) : Invariant p s :=
  invariant_inductive.reachable h

def State.attempts (s : State ω) : List (ω × Request) :=
  s.processed ++ s.unreturned.toList.map Prod.fst

theorem processed_returned (h : Invariant p s) :
    ∀ q ∈ s.processed, (p.call q.1 q.2).ended = .returned :=
  ((List.forall₂_and_left _ _).mp h.answered).1

theorem alive_iff (h : Invariant p s) :
    s.alive ↔ ∀ q ∈ s.attempts,
      (p.call q.1 q.2).ended = .returned ∨ (p.call q.1 q.2).ended = .endless := by
  constructor
  · intro ha q hq
    rcases List.mem_append.mp hq with hq | hq
    · exact Or.inl (processed_returned h q hq)
    · obtain ⟨c, hc, rfl⟩ := List.mem_map.mp hq
      have hmem := Option.mem_toList.mp hc
      obtain ⟨_, hended, _⟩ := h.unreturned c hmem
      exact Or.inr (hended.trans (ha c hmem))
  · intro hall q hq
    obtain ⟨hne, hended, _⟩ := h.unreturned q hq
    have hmem : q.1 ∈ s.attempts :=
      List.mem_append_right _ (List.mem_map_of_mem (Option.mem_toList.mpr hq))
    rcases hall q.1 hmem with hr | hr
    · exact absurd (hended.symm.trans hr) hne
    · exact hended.symm.trans hr

theorem stuck_iff (h : Invariant p s) :
    s.stuck = true ↔ ∃ q ∈ s.attempts, (p.call q.1 q.2).ended ≠ .returned := by
  constructor
  · intro hs
    obtain ⟨q, hq⟩ := Option.isSome_iff_exists.mp hs
    obtain ⟨hne, hended, _⟩ := h.unreturned q hq
    exact ⟨q.1, List.mem_append_right _ (List.mem_map_of_mem (Option.mem_toList.mpr hq)),
      by rwa [hended]⟩
  · rintro ⟨q, hq, hne⟩
    rcases List.mem_append.mp hq with hq | hq
    · exact absurd (processed_returned h q hq) hne
    · obtain ⟨c, hc, _⟩ := List.mem_map.mp hq
      exact Option.isSome_iff_exists.mpr ⟨c, Option.mem_toList.mp hc⟩

def sessionEvents (p : Processor ω) (s : State ω) :
    Event ω → List (SimpleSession.Event Request Response)
  | .dispatch => [.dispatch]
  | .readDone result residue => [.readDone result residue none]
  | .respond w =>
    match s.loading with
    | none => []
    | some (k, m) => (p.call w m).responses.map (SimpleSession.Event.respond k)
  | .writeDone w ok => [.writeDone w ok]

/-- The processor is one of the loaders a session allows for. -/
theorem connection_refines_session :
    Refinement (connection p) (SimpleSession.session Response.keepAlive) (Invariant p)
      State.session (sessionEvents p) where
  invariant := invariant_inductive
  initial := rfl
  step := by
    intro s e h he
    cases e with
    | dispatch => exact Execution.single (S := SimpleSession.session _) he.2
    | readDone result residue => exact Execution.single (S := SimpleSession.session _) he.2
    | writeDone w ok => exact Execution.single (S := SimpleSession.session _) he.2
    | respond w =>
      obtain ⟨⟨k, m⟩, hl⟩ := Option.isSome_iff_exists.mp he.2
      have hk : k ∈ s.session.callbacks := by simp [h.calling, hl]
      simp only [sessionEvents, hl]
      change Execution _ _ _ (respond p s w).session
      rcases p.once w m with ⟨hended, r, hr, _⟩ | ⟨hended, hr⟩
      · rw [respond_returned hl hended hr, hr]
        exact Execution.single (S := SimpleSession.session _) hk
      · rw [respond_unreturned hl hended, hr]
        exact .refl _

theorem answer_origin (h : Invariant p s) {k : ℕ} {r : Response}
    (hr : (k, r) ∈ s.session.answers) : ∃ q, s.processed[k]? = some q ∧
      s.session.arrived[k]? = some q.2 ∧ Answers p q r := by
  obtain ⟨hk, hget⟩ := List.getElem?_eq_some_iff.mp (getElem_of_answer h hr)
  obtain ⟨hlen, hall⟩ := List.forall₂_iff_get.mp h.answered
  have hlt : k < s.processed.length := hlen.symm ▸ hk
  have ha := hall k hlt hk
  rw [List.get_eq_getElem, List.get_eq_getElem, hget] at ha
  refine ⟨s.processed[k], List.getElem?_eq_getElem hlt, ?_, ha⟩
  rw [h.arrived, List.getElem?_append_left (by simpa using hlt), List.getElem?_map,
    List.getElem?_eq_getElem hlt]
  rfl

/-- The connection goes on reading as the request asked, not as the handler pleased. -/
theorem renewed_as_asked (h : Invariant p s) {w : PendingWrite} (hw : w ∈ s.session.writes)
    (ok : Bool) : ∃ m, s.session.arrived[w.request]? = some m ∧
      (next p s (.writeDone w ok)).session.started = s.session.started ++
        (if ok = true ∧ m.keepAlive = true then [.read] else []) := by
  obtain ⟨r, hr, hstarted⟩ := SimpleSession.renewed_read h.session hw ok
  obtain ⟨q, _, hm, _, _, hcarries⟩ := answer_origin h hr
  exact ⟨q.2, hm, hcarries.2 ▸ hstarted⟩

theorem enabled_operation {e : Event ω} (he : Enabled s e) :
    0 < s.session.dispatched + s.session.reads + s.session.writes.length ∨
      (∃ w, e = .respond w) ∧ s.stuck = false ∧ s.loading.isSome = true := by
  cases e with
  | dispatch => exact Or.inl (Nat.add_pos_left (Nat.add_pos_left he.2 _) _)
  | readDone result residue => exact Or.inl (Nat.add_pos_left (Nat.add_pos_right _ he.2) _)
  | respond w => exact Or.inr ⟨⟨w, rfl⟩, he⟩
  | writeDone w ok => exact Or.inl (Nat.add_pos_right _ (List.length_pos_of_mem he.2))

theorem loading_of_stuck (h : Invariant p s) (hs : s.stuck = true) : s.loading.isSome = true := by
  obtain ⟨q, hq⟩ := Option.isSome_iff_exists.mp hs
  obtain ⟨_, _, k, hk⟩ := h.unreturned q hq
  rw [hk]
  rfl

theorem calling_of_loading (h : Invariant p s) (hl : s.loading.isSome = true) :
    s.session.callbacks.length = 1 := by
  obtain ⟨l, hl⟩ := Option.isSome_iff_exists.mp hl
  have hc := congrArg List.length h.calling
  rwa [hl] at hc

/-- While it is open and its call returns, a connection waits for exactly one thing. -/
theorem open_iff_enabled [Nonempty ω] (h : Invariant p s) (ha : s.alive) :
    s.session.closed = false ∧ s.stuck = false ↔ ∃ e, Enabled s e := by
  have ht := h.session.token
  have hc := congrArg List.length h.calling
  simp only [SimpleSession.tokens] at ht
  constructor
  · rintro ⟨hopen, hstuck⟩
    rw [hopen, Bool.toNat_false] at ht
    by_cases hd : 0 < s.session.dispatched
    · exact ⟨.dispatch, ha, hd⟩
    by_cases hr : 0 < s.session.reads
    · exact ⟨.readDone .endOfStream [], ha, hr⟩
    by_cases hw : 0 < s.session.writes.length
    · obtain ⟨w, hw⟩ := List.exists_mem_of_length_pos hw
      exact ⟨.writeDone w true, ha, hw⟩
    · refine ⟨.respond (Classical.arbitrary ω), hstuck, ?_⟩
      cases hl : s.loading with
      | some l => rfl
      | none =>
        rw [hl, Option.toList_none, List.map_nil, List.length_nil] at hc
        omega
  · rintro ⟨e, he⟩
    rcases enabled_operation he with hoperation | ⟨_, hstuck, hloading⟩
    · constructor
      · cases hclosed : s.session.closed with
        | false => rfl
        | true =>
          rw [hclosed, Bool.toNat_true] at ht
          omega
      · cases hstuck : s.stuck with
        | false => rfl
        | true =>
          have hcalling := calling_of_loading h (loading_of_stuck h hstuck)
          omega
    · refine ⟨?_, hstuck⟩
      have hcalling := calling_of_loading h hloading
      cases hclosed : s.session.closed with
      | false => rfl
      | true =>
        rw [hclosed, Bool.toNat_true] at ht
        omega

/-- Three events take a request from its read to the end of its answer. -/
def potential (s : State ω) : ℕ :=
  3 * s.session.arrived.length + s.session.reads + 2 * s.session.closed.toNat +
    s.unreturned.toList.length - s.session.callbacks.length

theorem callbacks_le_arrived (h : Invariant p s) :
    s.session.callbacks.length ≤ s.session.arrived.length := by
  have hp := h.session.paired
  omega

theorem potential_writeDone (h : Invariant p s) {w : PendingWrite} (hw : w ∈ s.session.writes)
    (ok : Bool) : potential s < potential (next p s (.writeDone w ok)) := by
  obtain ⟨hc, harrived, _⟩ := writeDone_frame s.session w ok
  obtain ⟨hs, hf⟩ := SimpleSession.open_of_operation h.session.token (by
    have := List.length_pos_of_mem hw
    omega)
  have hle := callbacks_le_arrived h
  have hr : s.session.reads + 2 * s.session.closed.toNat <
      (SimpleSession.next Response.keepAlive s.session (.writeDone w ok)).reads +
      2 * (SimpleSession.next Response.keepAlive s.session (.writeDone w ok)).closed.toNat := by
    simp only [SimpleSession.next, SimpleSession.responseStatus]
    split
    · simp [SimpleSession.State.closed, hs, hf]
    split
    · simp [SimpleSession.readStream, SimpleSession.State.closed, hs, hf]
    · simp [SimpleSession.endSession, SimpleSession.State.closed, hs, hf]
  simp only [potential, next, responseStatus, hc, harrived]
  omega

theorem potential_readDone (h : Invariant p s) (hr : 0 < s.session.reads)
    (result : ReadResult Request) (residue : List Request) :
    potential s < potential (next p s (.readDone result residue)) := by
  have ht := h.session.token
  obtain ⟨hs, hf⟩ := SimpleSession.open_of_operation ht (by omega)
  simp only [SimpleSession.tokens] at ht
  cases result with
  | received m =>
    simp only [potential, next, processRequest, SimpleSession.next, SimpleSession.processRequest,
      SimpleSession.handOver, SimpleSession.State.closed, List.length_append, List.length_cons,
      List.length_nil]
    omega
  | endOfStream | failed =>
    simp only [potential, next, processRequest, SimpleSession.next, SimpleSession.processRequest,
      SimpleSession.endSession, SimpleSession.State.closed, hs, hf, Bool.or_false, Bool.or_true,
      Bool.toNat_true, Bool.toNat_false]
    omega

theorem potential_respond (h : Invariant p s) (hstuck : s.stuck = false) (w : ω)
    (hl : s.loading.isSome = true) : potential s < potential (next p s (.respond w)) := by
  obtain ⟨⟨k, m⟩, hl⟩ := Option.isSome_iff_exists.mp hl
  have hle := callbacks_le_arrived h
  have hc := h.calling
  rw [hl] at hc
  change s.session.callbacks = [k] at hc
  have hu : s.unreturned = none := unreturned_of_not_stuck hstuck
  change potential s < potential (respond p s w)
  rw [hc] at hle
  rcases p.once w m with ⟨he, r, hr, _⟩ | ⟨he, _⟩
  · rw [respond_returned hl he hr]
    simp only [potential, SimpleSession.sendResponse, SimpleSession.State.closed, hc, hu,
      List.erase_cons_head, List.length_nil, List.length_cons, Option.toList_none] at *
    omega
  · rw [respond_unreturned hl he]
    simp only [potential, hc, hu, Option.toList_none, Option.toList_some, List.length_cons,
      List.length_nil] at *
    omega

/-- Nothing a connection does is for free. -/
theorem potential_next (h : Invariant p s) {e : Event ω} (he : Enabled s e) :
    potential s < potential (next p s e) := by
  cases e with
  | dispatch =>
    obtain ⟨_, hd⟩ := he
    have hle := callbacks_le_arrived h
    simp only [potential, next, SimpleSession.next, SimpleSession.readStream,
      SimpleSession.State.closed]
    omega
  | readDone result residue => exact potential_readDone h he.2 result residue
  | respond w => exact potential_respond h he.1 w he.2
  | writeDone w ok => exact potential_writeDone h he.2 ok

theorem unreturned_le_callbacks (h : Invariant p s) :
    s.unreturned.toList.length ≤ s.session.callbacks.length := by
  cases hu : s.unreturned with
  | none => exact Nat.zero_le _
  | some q =>
    obtain ⟨_, _, k, hl⟩ := h.unreturned q hu
    rw [h.calling, hl]
    exact le_refl 1

theorem potential_le (h : Invariant p s) :
    potential s ≤ 3 * s.session.arrived.length + 2 := by
  have ht := h.session.token
  have hu := unreturned_le_callbacks h
  simp only [SimpleSession.tokens] at ht
  simp only [potential]
  omega

end HttpConnections
