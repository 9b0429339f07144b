import Cur8or.ClientServer
import Cur8or.LengthFraming

/-! The responses of a connection as its peer sees them: bytes in the order they were written, to
be cut into messages again by the length each header announces and by the methods asked for. -/
namespace ResponseFraming

open CxxLibrary PosixPath PathResolver HttpResponses MessageProcessing ClientMain ClientSurvival
open HttpConnections LengthFraming TransitionSystem

structure Header where
  status : Status
  version : ℕ
  server : Bytes
  contentType : Bytes
  contentLength : ℕ
  keepAlive : Bool
  deriving DecidableEq

def header (r : Response) : Header where
  status := r.status
  version := r.version
  server := r.server
  contentType := r.contentType
  contentLength := r.contentLength
  keepAlive := r.keepAlive

/-- None of the statuses in use does away with the body; a HEAD does. -/
def expectedLength (method : Verb) (h : Header) : ℕ :=
  if method = .head then 0 else h.contentLength

variable {τ : Type*} (byte : Byte → τ)

/-- `τ` is the alphabet of the wire, into which the bytes of a body are put. -/
def message (r : Response) : Message Header τ := ⟨header r, r.body.map byte⟩

/-- The announced length is that of the body, unless a HEAD keeps the body back. -/
def Framed (method : Verb) (r : Response) : Prop :=
  r.contentLength = r.body.length ∨ method = .head ∧ r.body = []

theorem expectedLength_iff {method : Verb} {r : Response} (h : Framed method r) :
    expectedLength method (message byte r).header = (message byte r).body.length ↔
      (method = .head → r.body = []) := by
  simp only [message, List.length_map, expectedLength]
  by_cases hm : method = .head
  · rw [if_pos hm, eq_comm, List.length_eq_zero_iff]
    exact ⟨fun hbody _ => hbody, fun hbody => hbody hm⟩
  · rw [if_neg hm]
    have hlen : r.contentLength = r.body.length := h.resolve_right fun hh => hm hh.1
    exact iff_of_true hlen fun hh => absurd hh hm

theorem errorResponse_framed (host : Host) (request : Request) (status : Status)
    (message : Bytes) : Framed request.method (errorResponse host request status message) :=
  Or.inl rfl

theorem fileResponse_framed (host : Host) (request : Request) (path : Path) :
    Framed request.method (fileResponse host request path) := by
  simp only [fileResponse]
  cases host.openFile (cString path) with
  | noSuchFile => exact Or.inl rfl
  | failed message => exact Or.inl rfl
  | opened content =>
    by_cases hm : request.method = .head
    · exact Or.inr ⟨hm, if_pos hm⟩
    · left
      simp only [if_neg hm]

theorem callback_framed (host : Host) (residue : Residue) (request : Request) (x : Return) :
    Framed request.method ((ResponseFinalizer.mk request).callback host residue x).1 := by
  cases x with
  | error message => exact errorResponse_framed ..
  | file path => exact fileResponse_framed ..
  | data data => exact Or.inl rfl

variable {residue : Residue} {q : World × Request} {r : Response}

def Returned (w : World) (m : Request) (x : Return) : Prop :=
  ∃ program, (client w.env).find? (routeKey m.target.bytes) = some program ∧
    program.outcome m.target (queryData m) = ⟨[x], .ok ()⟩

theorem answer_cases (h : Answers (clientProcessor residue) q r) :
    (¬ (Accepted (client q.1.env) q.2.target ∧ handledVerb q.2.method = true) ∧
      ∃ message, message ≠ [] ∧ r = errorResponse q.1.host q.2 .badRequest message) ∨
    (Accepted (client q.1.env) q.2.target ∧ ∃ x, Returned q.1 q.2 x ∧
      r = ((ResponseFinalizer.mk q.2).callback q.1.host residue x).1) := by
  obtain ⟨w, m⟩ := q
  obtain ⟨_, hr, _⟩ := h
  change (process w.host residue (client w.env) m).responses = [r] at hr
  cases hs : supportedOperation (client w.env) m.target with
  | error f =>
    rw [process_undecided w.host residue m hs] at hr
    cases hr
  | ok supported =>
    cases supported with
    | false =>
      rw [process_refused w.host residue m hs] at hr
      refine Or.inl ⟨?_, text "Illegal request target", by decide,
        (List.singleton_inj.mp hr).symm⟩
      intro ha
      exact absurd (hs.symm.trans (supportedOperation_iff.mpr ha.1)) (by simp)
    | true =>
      have ha := supportedOperation_iff.mp hs
      cases hm : handledVerb m.method with
      | false =>
        rw [process_unknown w.host residue m ha hm] at hr
        refine Or.inl ⟨fun hh => ?_, text "Unknown HTTP method", by decide,
          (List.singleton_inj.mp hr).symm⟩
        exact absurd hh.2 (by decide)
      | true =>
        obtain ⟨program, hfind, hprocess⟩ := process_dispatched w.host residue m ha hm
        rw [hprocess] at hr
        have hd := outcome_decides hfind (queryData m)
        by_cases hruns : Runs w.env m.target (queryData m)
        · obtain ⟨x, hx⟩ := hd.answers hruns
          rw [hx] at hr
          exact Or.inr ⟨ha, x, ⟨program, hfind, hx⟩, (List.singleton_inj.mp hr).symm⟩
        by_cases hstalls : Stalls w.env m.target (queryData m)
        · obtain ⟨_, hx⟩ := hd.hangs hstalls
          rw [hx] at hr
          cases hr
        · obtain ⟨f, _, hx⟩ := hd.fails hruns hstalls
          rw [hx] at hr
          cases hr

theorem answer_framed (h : Answers (clientProcessor residue) q r) : Framed q.2.method r := by
  rcases answer_cases h with ⟨_, message, _, rfl⟩ | ⟨_, x, _, rfl⟩
  · exact errorResponse_framed ..
  · exact callback_framed ..

/-- The target of a HEAD is accepted, and what its functor returns has no text of its own. -/
def HeadClean (w : World) (m : Request) : Prop :=
  Accepted (client w.env) m.target ∧ ∃ x, Returned w m x ∧ BodyFree w.host x

theorem Returned.unique {w : World} {m : Request} {x y : Return} (hx : Returned w m x)
    (hy : Returned w m y) : x = y := by
  obtain ⟨program, hfind, hx⟩ := hx
  obtain ⟨program', hfind', hy⟩ := hy
  obtain rfl := Option.some.inj (hfind.symm.trans hfind')
  exact List.singleton_inj.mp (congrArg Run.returns (hx.symm.trans hy))

theorem answer_head_iff (h : Answers (clientProcessor residue) q r)
    (hm : q.2.method = .head) : r.body = [] ↔ HeadClean q.1 q.2 := by
  rcases answer_cases h with ⟨hrefused, message, hmessage, rfl⟩ | ⟨ha, x, hx, rfl⟩
  · refine iff_of_false hmessage fun hc => hrefused ⟨hc.1, ?_⟩
    rw [hm]
    rfl
  · have hself : withMethod q.2 .head = q.2 := by rw [withMethod, ← hm]
    have hne : q.2.target.bytes ≠ [] := List.ne_nil_of_mem (List.mem_of_head? ha.slash)
    have hbody : ((ResponseFinalizer.mk (withMethod q.2 .head)).callback q.1.host residue
        x).1.body = [] ↔ BodyFree q.1.host x := callback_head_body hne x
    rw [hself] at hbody
    rw [hbody]
    constructor
    · intro hfree
      exact ⟨ha, x, hx, hfree⟩
    · rintro ⟨_, y, hy, hfree⟩
      exact hx.unique hy ▸ hfree

variable [DecidableEq τ] (codec : HeaderCodec Header τ) {κ ι : Type*}

/-- The requests whose answers are on the wire, each with the world it met. -/
def written (c : HttpConnections.State World) : List (World × Request) :=
  c.processed.take c.wire.length

/-- A peer that knows which methods it asked for reads back the responses whose writes are complete
just when no HEAD among them was answered with a body. -/
theorem connection_readable_iff {succeeds : SocketListener.SetupCall → Bool}
    {s : ClientServer.State κ ι}
    (h : Reachable (ClientServer.server residue succeeds) s) {c : HttpConnections.State World}
    (hc : c ∈ s.connections) :
    read codec expectedLength ((written c).map fun q => q.2.method)
        (write codec (c.wire.map (message byte))) = some (c.wire.map (message byte)) ↔
      ∀ q ∈ written c, q.2.method = .head → HeadClean q.1 q.2 := by
  have hi := ClientServer.connection_invariant h hc
  have hanswered : List.Forall₂ (Answers (clientProcessor residue)) (written c) c.wire := by
    have htake := List.forall₂_take c.wire.length hi.answered
    rwa [← hi.written.ordered] at htake
  rw [read_write_iff, List.forall₂_map_left_iff, List.forall₂_map_right_iff]
  generalize c.wire = rs at hanswered ⊢
  generalize written c = qs at hanswered ⊢
  induction hanswered with
  | nil => simp
  | @cons q r qs rs ha _ ih =>
    rw [List.forall₂_cons, expectedLength_iff byte (answer_framed ha), List.forall_mem_cons]
    exact and_congr (forall_congr' fun hm => answer_head_iff ha hm) ih

def symbols : HeaderCodec Header (Header ⊕ Byte) where
  encode h := [.inl h]
  decode
    | .inl h :: rest => some (h, rest)
    | _ => none
  decode_encode _ _ := rfl

def Readable (c : HttpConnections.State World) : Prop :=
  read symbols expectedLength ((written c).map fun q => q.2.method)
    (write symbols (c.wire.map (message Sum.inr))) = some (c.wire.map (message Sum.inr))

def headed : ClientServer.State Char ℕ :=
  runTrace (ClientServer.server id fun _ => true) (ClientServer.start fun _ => true)
    [.accept (.ok 'a'), .act 0 .dispatch,
      .act 0 (.readDone (.received ⟨.head, .ofText "/absent", 11, true, .empty⟩) []),
      .act 0 (.respond ⟨shortNames, emptyHost⟩), .act 0 (.writeDone ⟨0, true⟩ true)]

theorem headed_reachable :
    Reachable (ClientServer.server (κ := Char) (ι := ℕ) id fun _ => true) headed :=
  valid_trace_reachable (by decide +kernel)

theorem absent_refused (env : Environment) : ¬ Accepted (client env) (.ofText "/absent") := by
  intro h
  have hkey : routeKey (StringView.ofText "/absent").bytes = text "absent" := by decide +kernel
  have hregistered := h.registered
  rw [hkey, UnorderedMap.contains, client_find, if_neg (by decide), if_neg (by decide),
    if_neg (by decide)] at hregistered
  cases hregistered

theorem connection_readable_iff_headed :
    (∃ c ∈ ClientServer.overlapped.connections.head?, c.wire.length = 1 ∧ Readable c) ∧
      ∃ c ∈ headed.connections.head?, c.wire.length = 1 ∧ ¬ Readable c := by
  have hiff : ∀ {s : ClientServer.State Char ℕ},
      Reachable (ClientServer.server id fun _ => true) s → ∀ c ∈ s.connections,
        (Readable c ↔ ∀ q ∈ written c, q.2.method = .head → HeadClean q.1 q.2) :=
    fun h _ hc => connection_readable_iff Sum.inr symbols h hc
  constructor
  · obtain ⟨c, hc, hlen, hno⟩ : ∃ c ∈ ClientServer.overlapped.connections.head?,
        c.wire.length = 1 ∧ ∀ q ∈ written c, q.2.method ≠ .head := by decide +kernel
    refine ⟨c, hc, hlen, ?_⟩
    rw [hiff ClientServer.overlapped_reachable c (List.mem_of_mem_head? hc)]
    exact fun q hq hm => absurd hm (hno q hq)
  · obtain ⟨c, hc, hlen, q, hq, hm, htarget⟩ : ∃ c ∈ headed.connections.head?,
        c.wire.length = 1 ∧ ∃ q ∈ written c, q.2.method = .head ∧
          q.2.target = .ofText "/absent" := by decide +kernel
    refine ⟨c, hc, hlen, ?_⟩
    rw [hiff headed_reachable c (List.mem_of_mem_head? hc)]
    intro hclean
    have ha := (hclean q hq hm).1
    rw [htarget] at ha
    exact absent_refused _ ha

end ResponseFraming
