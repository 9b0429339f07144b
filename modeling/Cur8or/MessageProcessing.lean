import Cur8or.HttpResponses

/-! The message processor and the finalizer through which a query answers. A request moved
from is replaced by an unspecified residue, so that reading it afterwards would show. -/
namespace MessageProcessing

open CxxLibrary PosixPath UtilitiesAdaptors PathResolver HttpResponses

variable {σ : Type*}

/-- What `std::move` leaves behind in a request. -/
abbrev Residue := Request → Request

structure ResponseFinalizer where
  request : Request

namespace ResponseFinalizer

def errorResponseCallback (host : Host) (residue : Residue) (f : ResponseFinalizer)
    (message : Bytes) : Response × ResponseFinalizer :=
  (errorResponse host f.request .badRequest message, ⟨residue f.request⟩)

def fileResponseCallback (host : Host) (residue : Residue) (f : ResponseFinalizer)
    (path : Path) : Response × ResponseFinalizer :=
  (fileResponse host f.request path, ⟨residue f.request⟩)

def dataResponseCallback (host : Host) (residue : Residue) (f : ResponseFinalizer)
    (data : Bytes) : Response × ResponseFinalizer :=
  (dataResponse host f.request data, ⟨residue f.request⟩)

def callback (host : Host) (residue : Residue) (f : ResponseFinalizer) :
    Return → Response × ResponseFinalizer
  | .error message => f.errorResponseCallback host residue message
  | .file path => f.fileResponseCallback host residue path
  | .data data => f.dataResponseCallback host residue data

def answer (host : Host) (residue : Residue) (f : ResponseFinalizer) :
    List Return → List Response
  | [] => []
  | r :: rest =>
    let (response, f) := f.callback host residue r
    response :: answer host residue f rest

theorem callback_carries (host : Host) (residue : Residue) (f : ResponseFinalizer) (r : Return) :
    (f.callback host residue r).1.Carries f.request := by
  cases r with
  | error message => exact errorResponse_carries ..
  | file path => exact fileResponse_carries ..
  | data data => exact dataResponse_carries ..

end ResponseFinalizer

/-- One call of `MessageProcessor::operator()`: the arguments the response callback was invoked
with, the run of the handler if there was one, and how the call ended. -/
structure Processing where
  responses : List Response
  handler : Option Run
  ended : Completion

def handledVerb : Verb → Bool
  | .get | .head | .post => true
  | .other _ => false

/-- The data of a query: the body of a POST, nothing otherwise. -/
def queryData (request : Request) : StringView :=
  match request.method with
  | .post => request.body
  | _ => .empty

def dispatch (host : Host) (residue : Residue) (pathResolver : VirtualPathMap σ)
    (finalizer : ResponseFinalizer) : Processing :=
  match newQuery pathResolver finalizer.request.target with
  | .error f => ⟨[], none, completion (.error f)⟩
  | .ok query =>
    let query := match finalizer.request.method with
      | .post => query.setData finalizer.request.body
      | _ => query
    let run := query.run.2
    ⟨finalizer.answer host residue run.returns, some run, completion run.exit⟩

/-- `MessageProcessor::operator()` -/
def process (host : Host) (residue : Residue) (pathResolver : VirtualPathMap σ)
    (request : Request) : Processing :=
  match supportedOperation pathResolver request.target with
  | .error f => ⟨[], none, completion (.error f)⟩
  | .ok false =>
    ⟨[errorResponse host request .badRequest (text "Illegal request target")], none, .returned⟩
  | .ok true =>
    match request.method with
    | .get | .head | .post => dispatch host residue pathResolver ⟨request⟩
    | .other _ =>
      ⟨[errorResponse host request .badRequest (text "Unknown HTTP method")], none, .returned⟩

/-- Every registered functor answers exactly once and throws nothing. -/
def WellBehaved (pathResolver : VirtualPathMap σ) : Prop :=
  ∀ key program, pathResolver.find? key = some program →
    ∀ target data, ∃ r, program.outcome target data = ⟨[r], .ok ()⟩

variable {host : Host} {residue : Residue} {pathResolver : VirtualPathMap σ} {request : Request}

theorem process_refused (host : Host) (residue : Residue) (request : Request)
    (h : supportedOperation pathResolver request.target = .ok false) :
    process host residue pathResolver request =
      ⟨[errorResponse host request .badRequest (text "Illegal request target")], none,
        .returned⟩ := by
  rw [process, h]

theorem process_unknown (host : Host) (residue : Residue) (request : Request)
    (h : Accepted pathResolver request.target)
    (hm : handledVerb request.method = false) :
    process host residue pathResolver request =
      ⟨[errorResponse host request .badRequest (text "Unknown HTTP method")], none,
        .returned⟩ := by
  rw [process, supportedOperation_iff.mpr h]
  cases hv : request.method with
  | get | head | post => simp [hv, handledVerb] at hm
  | other code => rfl

theorem process_dispatched (host : Host) (residue : Residue) (request : Request)
    (h : Accepted pathResolver request.target)
    (hm : handledVerb request.method = true) : ∃ program,
      pathResolver.find? (routeKey request.target.bytes) = some program ∧
      process host residue pathResolver request =
        let run := program.outcome request.target (queryData request)
        ⟨(ResponseFinalizer.mk request).answer host residue run.returns, some run,
          completion run.exit⟩ := by
  obtain ⟨program, hfind, hnew⟩ := newQuery_of_accepted h
  refine ⟨program, hfind, ?_⟩
  rw [process, supportedOperation_iff.mpr h]
  cases hv : request.method with
  | get | head | post => simp only [dispatch, hnew, hv, Query.run_snd, Query.setData, queryData]
  | other code => simp [hv, handledVerb] at hm

theorem process_undecided (host : Host) (residue : Residue) (request : Request) {f : Fault}
    (h : supportedOperation pathResolver request.target = .error f) :
    process host residue pathResolver request = ⟨[], none, completion (.error f)⟩ := by
  rw [process, h]

theorem process_answered (host : Host) (residue : Residue) (request : Request)
    (hw : WellBehaved pathResolver)
    (h : Accepted pathResolver request.target) (hm : handledVerb request.method = true) :
    ∃ program r, pathResolver.find? (routeKey request.target.bytes) = some program ∧
      program.outcome request.target (queryData request) = ⟨[r], .ok ()⟩ ∧
      process host residue pathResolver request =
        ⟨[((ResponseFinalizer.mk request).callback host residue r).1], some ⟨[r], .ok ()⟩,
          .returned⟩ := by
  obtain ⟨program, hfind, hproc⟩ := process_dispatched host residue request h hm
  obtain ⟨r, hr⟩ := hw _ program hfind request.target (queryData request)
  refine ⟨program, r, hfind, hr, ?_⟩
  rw [hproc, hr]
  rfl

structure Answered (pathResolver : VirtualPathMap σ) (request : Request) (p : Processing) :
    Prop where
  once : ∃ response, p.responses = [response] ∧ response.Carries request
  returned : p.ended = .returned
  handler : p.handler.isSome = true ↔
    supportedOperation pathResolver request.target = .ok true ∧ handledVerb request.method = true
  found : p.handler.isSome = true →
    ∃ name program, firstName request.target = .ok name ∧ pathResolver.at? name = .ok program

/-- As long as the `int` that counts the slashes of a target worth splitting does not wrap. -/
theorem process_answers_once (host : Host) (residue : Residue)
    (pathResolver : VirtualPathMap σ) (request : Request) (hw : WellBehaved pathResolver)
    (hc : request.target.bytes.head? = some separator → ¬ dotDot <:+: request.target.bytes →
      0 < ParamPathAdaptor.standard.passes request.target) :
    Answered pathResolver request (process host residue pathResolver request) := by
  obtain ⟨supported, hs⟩ := supportedOperation_total pathResolver hc
  cases supported with
  | false =>
    rw [process_refused host residue request hs]
    refine ⟨⟨_, rfl, errorResponse_carries ..⟩, rfl, ?_, ?_⟩
    · simp [hs]
    · intro h
      cases h
  | true =>
    have ha := supportedOperation_iff.mp hs
    cases hm : handledVerb request.method with
    | false =>
      rw [process_unknown host residue request ha hm]
      refine ⟨⟨_, rfl, errorResponse_carries ..⟩, rfl, ?_, ?_⟩
      · simp [hm]
      · intro h
        cases h
    | true =>
      obtain ⟨program, r, hfind, hr, hproc⟩ :=
        process_answered host residue request hw ha hm
      rw [hproc]
      refine ⟨⟨_, rfl, ResponseFinalizer.callback_carries ..⟩, rfl, ?_, ?_⟩
      · simp [hs, hm]
      · intro _
        refine ⟨_, program, by rw [firstName_eq ha.slash, if_pos ha.counted], ?_⟩
        rw [UnorderedMap.at?, hfind]

def rootOnly : VirtualPathMap Unit :=
  registerCallback .empty [] ⟨(), fun _ _ _ => ((), ⟨[.data []], .ok ()⟩)⟩

def emptyHost : Host := ⟨fun _ => .noSuchFile, text "Boost.Beast"⟩

theorem rootOnly_wellBehaved : WellBehaved rootOnly := by
  intro key program h target data
  rw [rootOnly, registerCallback, UnorderedMap.find?_emplace] at h
  split at h
  · obtain rfl := Option.some.inj h
    exact ⟨_, rfl⟩
  · exact absurd h (by simp [UnorderedMap.find?, UnorderedMap.empty])

theorem process_answers_once_root :
    Answered rootOnly ⟨.get, .ofText "/", 11, true, .empty⟩
      (process emptyHost id rootOnly ⟨.get, .ofText "/", 11, true, .empty⟩) :=
  process_answers_once _ _ _ _ rootOnly_wellBehaved (fun h _ => passes_pos h (by decide))

def slashes (n : ℕ) (h : n < npos) : StringView :=
  ⟨List.replicate n separator, by simpa using h⟩

theorem slashes_head {n : ℕ} (h : n < npos) (hn : 0 < n) :
    (slashes n h).bytes.head? = some separator := by
  rw [slashes, List.head?_replicate, if_neg (Nat.ne_of_gt hn)]

theorem slashes_confined {n : ℕ} (h : n < npos) : ¬ dotDot <:+: (slashes n h).bytes := by
  intro hi
  have hmem : '.'.toUInt8 ∈ (slashes n h).bytes := hi.mem (by decide)
  exact absurd (List.eq_of_mem_replicate hmem) (by decide)

theorem slashes_undecided (pathMap : VirtualPathMap σ) {n : ℕ} (h : n < npos) (hn : 0 < n)
    (hneg : narrowInt n ≤ 0) :
    supportedOperation pathMap (slashes n h) = .error .emptyFront := by
  have hslash := slashes_head h hn
  have hcount : (slashes n h).count separator = n := List.count_replicate_self
  have hpasses : ¬ 0 < ParamPathAdaptor.standard.passes (slashes n h) := by
    change ¬ 0 < (narrowInt ((slashes n h).count separator)).toNat
    rw [hcount]
    omega
  rw [supportedOperation_eq, if_pos ⟨hslash, slashes_confined h⟩, firstName_eq hslash,
    if_neg hpasses]
  rfl

theorem intMax_succ_lt_npos : intMax + 1 < npos := by
  unfold intMax npos sizeModulus
  omega

def slashRequest (n : ℕ) (h : n < npos) : Request := ⟨.get, slashes n h, 11, true, .empty⟩

/-- One slash more than an `int` counts: the split comes out empty and has no front. -/
theorem slashes_unanswered :
    WellBehaved rootOnly ∧
    (process emptyHost id rootOnly (slashRequest (intMax + 1) intMax_succ_lt_npos)).responses = [] ∧
    (process emptyHost id rootOnly (slashRequest (intMax + 1) intMax_succ_lt_npos)).ended =
      .undefined .emptyFront := by
  have hneg := Int.le_of_lt narrowInt_intMax_succ
  have h := slashes_undecided rootOnly intMax_succ_lt_npos (Nat.succ_pos _) hneg
  have hp := process_undecided emptyHost id
    (slashRequest (intMax + 1) intMax_succ_lt_npos) h
  rw [hp]
  exact ⟨rootOnly_wellBehaved, rfl, rfl⟩

def withMethod (request : Request) (method : Verb) : Request := { request with method := method }

def HeadAgrees (head get : Processing) : Prop :=
  ∃ h g, head.responses = [h] ∧ get.responses = [g] ∧ h.SameHeader g ∧ h.body = []

def BodyFree (host : Host) : Return → Prop
  | .error message => message = []
  | .data data => data = []
  | .file path =>
    match host.openFile (cString path) with
    | .opened _ => True
    | .noSuchFile => False
    | .failed message => message = []

theorem callback_sameHeader (host : Host) (residue : Residue) (request : Request) (method : Verb)
    (r : Return) :
    ((ResponseFinalizer.mk (withMethod request method)).callback host residue r).1.SameHeader
      ((ResponseFinalizer.mk request).callback host residue r).1 := by
  cases r with
  | error message => exact ⟨rfl, rfl, rfl⟩
  | file path => exact fileResponse_sameHeader host request method path
  | data data => exact ⟨rfl, rfl, rfl⟩

/-- Only the template for a file that opened looks at the method. -/
theorem callback_head_body (hne : request.target.bytes ≠ []) (r : Return) :
    ((ResponseFinalizer.mk (withMethod request .head)).callback host residue r).1.body = [] ↔
      BodyFree host r := by
  cases r with
  | error message => exact Iff.rfl
  | data data => exact Iff.rfl
  | file path =>
    have hbody := fileResponse_head_body host (withMethod request .head) rfl path
    change (fileResponse host (withMethod request .head) path).body = [] ↔ _
    rw [hbody, BodyFree]
    cases host.openFile (cString path) with
    | opened content => simp
    | noSuchFile => simpa [withMethod] using hne
    | failed message => exact Iff.rfl

theorem head_agrees_iff (hw : WellBehaved pathResolver) :
    HeadAgrees (process host residue pathResolver (withMethod request .head))
        (process host residue pathResolver (withMethod request .get)) ↔
      supportedOperation pathResolver request.target = .ok true ∧
      ∀ program, pathResolver.find? (routeKey request.target.bytes) = some program →
        ∀ r, program.outcome request.target .empty = ⟨[r], .ok ()⟩ → BodyFree host r := by
  cases hs : supportedOperation pathResolver request.target with
  | error f =>
    rw [process_undecided host residue (withMethod request .head) hs]
    simp [HeadAgrees]
  | ok supported =>
    cases supported with
    | false =>
      rw [process_refused host residue (withMethod request .head) hs]
      constructor
      · rintro ⟨h, g, hh, _, _, hb⟩
        obtain rfl := List.singleton_inj.mp hh
        have htext : text "Illegal request target" ≠ [] := by decide
        exact absurd hb htext
      · rintro ⟨h, _⟩
        cases h
    | true =>
      have ha := supportedOperation_iff.mp hs
      have hne : request.target.bytes ≠ [] := List.ne_nil_of_mem (List.mem_of_head? ha.slash)
      obtain ⟨program, r, hfind, hr, hhead⟩ := process_answered host residue
        (withMethod request .head) hw ha rfl
      obtain ⟨program', r', hfind', hr', hget⟩ := process_answered host residue
        (withMethod request .get) hw ha rfl
      obtain rfl : program = program' := Option.some.inj (hfind.symm.trans hfind')
      have hreturns : [r] = [r'] := congrArg Run.returns (hr.symm.trans hr')
      obtain rfl := List.singleton_inj.mp hreturns
      rw [hhead, hget]
      constructor
      · rintro ⟨h, g, hh, _, _, hb⟩
        obtain rfl := List.singleton_inj.mp hh
        refine ⟨rfl, ?_⟩
        intro p hp s hout
        obtain rfl : program = p := Option.some.inj (hfind.symm.trans hp)
        have hrs : [r] = [s] := congrArg Run.returns (hr.symm.trans hout)
        obtain rfl := List.singleton_inj.mp hrs
        exact (callback_head_body hne r).mp hb
      · rintro ⟨_, h⟩
        refine ⟨_, _, rfl, rfl,
          callback_sameHeader host residue (withMethod request .get) .head r, ?_⟩
        exact (callback_head_body hne r).mpr (h program hfind r hr)

theorem head_agrees_iff_root :
    HeadAgrees
      (process emptyHost id rootOnly (withMethod ⟨.get, .ofText "/", 11, true, .empty⟩ .head))
      (process emptyHost id rootOnly (withMethod ⟨.get, .ofText "/", 11, true, .empty⟩ .get)) := by
  refine (head_agrees_iff rootOnly_wellBehaved).mpr ⟨by decide, ?_⟩
  intro program hp r hr
  obtain rfl : _ = program := Option.some.inj ((by rfl :
    rootOnly.find? (routeKey (text "/")) = some _).symm.trans hp)
  obtain rfl : Return.data [] = r := List.singleton_inj.mp (congrArg Run.returns hr)
  rfl

theorem head_refused_with_body :
    ¬ HeadAgrees
      (process emptyHost id rootOnly
        (withMethod ⟨.get, .ofText "/nothing", 11, true, .empty⟩ .head))
      (process emptyHost id rootOnly
        (withMethod ⟨.get, .ofText "/nothing", 11, true, .empty⟩ .get)) := by
  have hs : supportedOperation rootOnly (.ofText "/nothing") = .ok false := by decide
  rw [process_refused emptyHost id
    (withMethod ⟨.get, .ofText "/nothing", 11, true, .empty⟩ .head) hs]
  rintro ⟨h, g, hh, _, _, hb⟩
  obtain rfl := List.singleton_inj.mp hh
  have htext : text "Illegal request target" ≠ [] := by decide
  exact htext hb

end MessageProcessing
