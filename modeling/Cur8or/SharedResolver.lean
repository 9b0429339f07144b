import Mathlib.Data.List.InsertIdx
import Cur8or.AtomicService
import Cur8or.MessageProcessing
import Cur8or.QueryIsolation

/-! Calls of the message processor from several threads, over the one resolver they share. A call
reads the map twice, and between its steps those of the others come in any order, until a call
ends the program. Each step meets the world of its moment, so what one call does to the database
or to a file the next ones find. -/
namespace SharedResolver

open CxxLibrary PosixPath UtilitiesAdaptors PathResolver HttpResponses MessageProcessing
open ClientMain (Environment client shortNames)
open TransitionSystem
open QueryIsolation (Registration resolver callbacks)

variable {ω σ : Type*}

/-- `supportedOperation` on the map as it lies in memory. -/
def supportedOperation (heap : QueryIsolation.State ω σ) (vpath : StringView) :
    Except Fault Bool :=
  if vpath.size = 0 then .ok false
  else if vpath.bytes.head? ≠ some separator then .ok false
  else if vpath.findText dotDot ≠ npos then .ok false
  else (firstName vpath).map heap.pathMap.contains

/-- A call that has its query; `ready` once the data is set, or when there is none to set. -/
structure Task where
  request : Request
  ready : Bool

/-- A call whose fate is known, with the world that decided it. -/
abbrev Settled (ω : Type*) := AtomicService.Answer ω Request Processing

/-- The tasks come in the order of the waiting queries of the heap, the requests in `accepted`
have no query yet. `entered` is a history. -/
structure State (ω σ : Type*) where
  heap : QueryIsolation.State ω σ
  accepted : List Request
  tasks : List Task
  done : List (Settled ω)
  entered : List Request

def finish (s : State ω σ) (w : ω) (request : Request) (processing : Processing) : State ω σ :=
  { s with done := s.done ++ [⟨w, request, processing⟩] }

/-- Up to the end of the first method switch. -/
def enter (host : ω → Host) (s : State ω σ) (w : ω) (request : Request) : State ω σ :=
  let s := { s with entered := s.entered ++ [request] }
  match supportedOperation s.heap request.target with
  | .error f => finish s w request ⟨[], none, completion (.error f)⟩
  | .ok false =>
    finish s w request
      ⟨[errorResponse (host w) request .badRequest (text "Illegal request target")], none,
        .returned⟩
  | .ok true =>
    if handledVerb request.method then { s with accepted := s.accepted ++ [request] }
    else
      finish s w request
        ⟨[errorResponse (host w) request .badRequest (text "Unknown HTTP method")], none,
          .returned⟩

def newQuery (s : State ω σ) (w : ω) (i : ℕ) : State ω σ :=
  match s.accepted[i]? with
  | none => s
  | some request =>
    let s := { s with accepted := s.accepted.eraseIdx i }
    match QueryIsolation.lookup s.heap request.target with
    | .error f => finish s w request ⟨[], none, completion (.error f)⟩
    | .ok _ =>
      { s with
        heap := QueryIsolation.newQuery s.heap request.target
        tasks := s.tasks ++ [⟨request, decide (request.method ≠ .post)⟩] }

def setData (s : State ω σ) (i : ℕ) : State ω σ :=
  match s.tasks[i]? with
  | none => s
  | some t =>
    { s with
      heap := QueryIsolation.setData s.heap i t.request.body
      tasks := s.tasks.set i { t with ready := true } }

def outcome (heap : QueryIsolation.State ω σ) (w : ω) (i : ℕ) : Option Run :=
  (heap.waiting[i]?).bind fun q =>
    (QueryIsolation.read heap.store q.program).map fun p => (p.under w).outcome q.target q.data

def run (host : ω → Host) (residue : Residue) (s : State ω σ) (w : ω) (i : ℕ) : State ω σ :=
  match s.tasks[i]?, outcome s.heap w i with
  | some t, some run =>
    finish
      { s with
        heap := QueryIsolation.run s.heap w i
        tasks := s.tasks.eraseIdx i }
      w t.request
      ⟨(ResponseFinalizer.mk t.request).answer (host w) residue run.returns, some run,
        completion run.exit⟩
  | _, _ => s

inductive Event (ω : Type*) where
  | enter (w : ω) (request : Request)
  | newQuery (w : ω) (i : ℕ)
  | setData (i : ℕ)
  | run (w : ω) (i : ℕ)

/-- No call has ended the program; one that goes on for ever only keeps its thread. -/
def State.alive (s : State ω σ) : Prop :=
  ∀ d ∈ s.done, d.result.ended = .returned ∨ d.result.ended = .endless

instance (s : State ω σ) : Decidable s.alive := inferInstanceAs (Decidable (∀ _ ∈ _, _))

def Enabled (s : State ω σ) : Event ω → Prop
  | .enter _ _ => s.alive
  | .newQuery _ i => s.alive ∧ i < s.accepted.length
  | .setData i => s.alive ∧ (s.tasks[i]?).map Task.ready = some false
  | .run _ i => s.alive ∧ (s.tasks[i]?).map Task.ready = some true

instance (s : State ω σ) : (e : Event ω) → Decidable (Enabled s e)
  | .enter _ _ => inferInstanceAs (Decidable s.alive)
  | .newQuery _ _ => inferInstanceAs (Decidable (_ ∧ _))
  | .setData _ => inferInstanceAs (Decidable (_ ∧ _))
  | .run _ _ => inferInstanceAs (Decidable (_ ∧ _))

def next (host : ω → Host) (residue : Residue) (s : State ω σ) : Event ω → State ω σ
  | .enter w request => enter host s w request
  | .newQuery w i => newQuery s w i
  | .setData i => setData s i
  | .run w i => run host residue s w i

def processing (host : ω → Host) (residue : Residue) (calls : List (Registration ω σ)) :
    System (State ω σ) (Event ω) where
  initial := ⟨QueryIsolation.initial calls, [], [], [], []⟩
  Enabled := Enabled
  next := next host residue

instance (host : ω → Host) (residue : Residue) (calls : List (Registration ω σ))
    (s : State ω σ) (e : Event ω) : Decidable ((processing host residue calls).Enabled s e) :=
  inferInstanceAs (Decidable (Enabled s e))

variable {host : ω → Host} {residue : Residue} {calls : List (Registration ω σ)} {s : State ω σ}

/-- What processing the request alone comes to, in one world. -/
def alone (host : ω → Host) (residue : Residue) (calls : List (Registration ω σ)) (w : ω)
    (request : Request) : Processing := process (host w) residue (resolver calls w) request

theorem contains_eq {heap : QueryIsolation.State ω σ} (h : QueryIsolation.Invariant calls heap)
    (w : ω) (key : Bytes) : heap.pathMap.contains key = (resolver calls w).contains key := by
  have hs := congrArg Option.isSome (h.stored key)
  rw [Option.isSome_map, Option.isSome_map] at hs
  rw [UnorderedMap.contains, UnorderedMap.contains, hs, QueryIsolation.resolver_find,
    Option.isSome_map]

theorem supportedOperation_eq {heap : QueryIsolation.State ω σ}
    (h : QueryIsolation.Invariant calls heap) (w : ω) (vpath : StringView) :
    supportedOperation heap vpath = PathResolver.supportedOperation (resolver calls w) vpath := by
  have hc : heap.pathMap.contains = (resolver calls w).contains := funext (contains_eq h w)
  rw [supportedOperation, PathResolver.supportedOperation, hc]

theorem accepted_under {v : ω} {target : StringView} (h : Accepted (resolver calls v) target)
    (w : ω) : Accepted (resolver calls w) target := by
  refine ⟨h.slash, h.confined, h.counted, ?_⟩
  have hr := h.registered
  rw [UnorderedMap.contains, QueryIsolation.resolver_find, Option.isSome_map] at hr ⊢
  exact hr

theorem lookup_accepted {heap : QueryIsolation.State ω σ}
    (h : QueryIsolation.Invariant calls heap) {v : ω} {target : StringView}
    (ha : Accepted (resolver calls v) target) :
    ∃ f p, QueryIsolation.lookup heap target = .ok f ∧
      QueryIsolation.read heap.store f = some p ∧
      (∀ w, PathResolver.newQuery (resolver calls w) target =
        .ok ⟨target, .empty, p.under w⟩) ∧
      QueryIsolation.Enabled heap (.newQuery target) := by
  obtain ⟨_, _, hq⟩ := newQuery_of_accepted ha
  have he := QueryIsolation.newQuery_enabled h hq
  obtain ⟨f, p, hl, hr, hnew⟩ := h.lookup_read he
  exact ⟨f, p, hl, hr, hnew, he⟩

structure Waits (calls : List (Registration ω σ)) (t : Task) (q : QueryIsolation.Waiting ω σ) :
    Prop where
  accepted : ∀ w, Accepted (resolver calls w) t.request.target
  handled : handledVerb t.request.method = true
  target : q.target = t.request.target
  posts : t.ready = false → t.request.method = .post
  data : t.ready = true → q.data = queryData t.request

structure Invariant (calls : List (Registration ω σ)) (s : State ω σ) : Prop where
  heap : QueryIsolation.Invariant calls s.heap
  accepted : ∀ r ∈ s.accepted,
    (∀ w, Accepted (resolver calls w) r.target) ∧ handledVerb r.method = true
  length : s.tasks.length = s.heap.waiting.length
  waits : ∀ (i : ℕ) t q, s.tasks[i]? = some t → s.heap.waiting[i]? = some q → Waits calls t q

theorem Invariant.waiting (h : Invariant calls s) {i : ℕ} {t : Task} (ht : s.tasks[i]? = some t) :
    ∃ q, s.heap.waiting[i]? = some q ∧ Waits calls t q := by
  obtain ⟨hi, _⟩ := List.getElem?_eq_some_iff.mp ht
  have hq := List.getElem?_eq_getElem (h.length ▸ hi)
  exact ⟨_, hq, h.waits i t _ ht hq⟩

theorem alone_of_waits {t : Task} {q : QueryIsolation.Waiting ω σ} {p : QueryProgram σ}
    (host : ω → Host) (residue : Residue) (w : ω) (hw : Waits calls t q) (hr : t.ready = true)
    (hq : PathResolver.newQuery (resolver calls w) q.target = .ok ⟨q.target, .empty, p⟩) :
    alone host residue calls w t.request =
      ⟨(ResponseFinalizer.mk t.request).answer (host w) residue
          (p.outcome q.target q.data).returns,
        some (p.outcome q.target q.data), completion (p.outcome q.target q.data).exit⟩ := by
  obtain ⟨program, hfind, hprocess⟩ := process_dispatched (host w) residue t.request
    (hw.accepted w) hw.handled
  obtain ⟨program', hfind', hnew⟩ := newQuery_of_accepted (hw.accepted w)
  obtain rfl := Option.some.inj (hfind.symm.trans hfind')
  rw [hw.target, hnew] at hq
  obtain rfl : program = p := congrArg Query.program (Except.ok.inj hq)
  rw [alone, hprocess, hw.target, hw.data hr]

theorem outcome_eq {heap : QueryIsolation.State ω σ} {i : ℕ} {q : QueryIsolation.Waiting ω σ}
    {p : QueryIsolation.Callback ω σ} (hq : heap.waiting[i]? = some q)
    (hr : QueryIsolation.read heap.store q.program = some p) (w : ω) :
    outcome heap w i = some ((p.under w).outcome q.target q.data) := by
  simp [outcome, hq, hr]

def view (s : State ω σ) : AtomicService.State ω Request Processing :=
  ⟨s.accepted + s.tasks.map Task.request, s.entered, s.done⟩

def atomic (host : ω → Host) (residue : Residue) (calls : List (Registration ω σ)) :
    System (AtomicService.State ω Request Processing) (AtomicService.Event ω Request) :=
  AtomicService.service (alone host residue calls)

def Admitted (calls : List (Registration ω σ)) (w : ω) (request : Request) : Prop :=
  PathResolver.supportedOperation (resolver calls w) request.target = .ok true ∧
    handledVerb request.method = true

instance (calls : List (Registration ω σ)) (w : ω) (request : Request) :
    Decidable (Admitted calls w request) := inferInstanceAs (Decidable (_ ∧ _))

theorem enter_cases (h : Invariant calls s) (host : ω → Host) (residue : Residue) (w : ω)
    (request : Request) :
    (Admitted calls w request ∧ enter host s w request = { s with
      entered := s.entered ++ [request]
      accepted := s.accepted ++ [request] }) ∨
    (¬ Admitted calls w request ∧ enter host s w request = { s with
      entered := s.entered ++ [request]
      done := s.done ++ [⟨w, request, alone host residue calls w request⟩] }) := by
  have hsupported := supportedOperation_eq h.heap w request.target
  cases hs : PathResolver.supportedOperation (resolver calls w) request.target with
  | error f =>
    right
    rw [alone, process_undecided (host w) residue request hs]
    refine ⟨fun ha => absurd (hs.symm.trans ha.1) (by simp), ?_⟩
    simp only [enter, hsupported, hs, finish]
  | ok supported =>
    cases supported with
    | false =>
      right
      rw [alone, process_refused (host w) residue request hs]
      refine ⟨fun ha => absurd (hs.symm.trans ha.1) (by simp), ?_⟩
      simp only [enter, hsupported, hs, finish]
    | true =>
      have ha := supportedOperation_iff.mp hs
      cases hm : handledVerb request.method with
      | true =>
        left
        refine ⟨⟨hs, hm⟩, ?_⟩
        simp only [enter, hsupported, hs, hm, if_true]
      | false =>
        right
        rw [alone, process_unknown (host w) residue request ha hm]
        refine ⟨fun hadmitted => absurd (hm.symm.trans hadmitted.2) (by simp), ?_⟩
        simp only [enter, hsupported, hs, hm, finish]
        rfl

theorem newQuery_effect (h : Invariant calls s) (w : ω) {i : ℕ} {request : Request}
    (hr : s.accepted[i]? = some request) : ∃ q,
      newQuery s w i = { s with
        heap := QueryIsolation.newQuery s.heap request.target
        accepted := s.accepted.eraseIdx i
        tasks := s.tasks ++ [⟨request, decide (request.method ≠ .post)⟩] } ∧
      (QueryIsolation.newQuery s.heap request.target).waiting = s.heap.waiting ++ [q] ∧
      q.target = request.target ∧ q.data = .empty := by
  obtain ⟨ha, _⟩ := h.accepted request (List.mem_of_getElem? hr)
  obtain ⟨f, p, hl, hread, _⟩ := lookup_accepted h.heap (ha w)
  refine ⟨_, ?_, congrArg _ (QueryIsolation.newQuery_eq hl hread), rfl, rfl⟩
  simp only [newQuery, hr, hl]

theorem run_effect (h : Invariant calls s) {i : ℕ} {t : Task} (ht : s.tasks[i]? = some t)
    (hready : t.ready = true) (host : ω → Host) (residue : Residue) (w : ω) :
    run host residue s w i = { s with
      heap := QueryIsolation.run s.heap w i
      tasks := s.tasks.eraseIdx i
      done := s.done ++ [⟨w, t.request, alone host residue calls w t.request⟩] } ∧
    (QueryIsolation.run s.heap w i).waiting = s.heap.waiting.eraseIdx i := by
  obtain ⟨q, hq, hw⟩ := h.waiting ht
  obtain ⟨p, hread, hnew⟩ := h.heap.pending q (List.mem_of_getElem? hq)
  constructor
  · rw [alone_of_waits host residue w hw hready (hnew w)]
    simp only [run, ht, outcome_eq hq hread, finish]
  · rw [QueryIsolation.run_eq hq hread]

theorem enter_invariant (h : Invariant calls s) (host : ω → Host) (residue : Residue) (w : ω)
    (request : Request) : Invariant calls (enter host s w request) := by
  rcases enter_cases h host residue w request with ⟨ha, he⟩ | ⟨_, he⟩
  · rw [he]
    refine ⟨h.heap, ?_, h.length, h.waits⟩
    intro r hr
    rcases List.mem_append.mp hr with hr | hr
    · exact h.accepted r hr
    · obtain rfl := List.mem_singleton.mp hr
      exact ⟨accepted_under (supportedOperation_iff.mp ha.1), ha.2⟩
  · rw [he]
    exact ⟨h.heap, h.accepted, h.length, h.waits⟩

theorem newQuery_invariant (h : Invariant calls s) (w : ω) {i : ℕ}
    (hi : i < s.accepted.length) : Invariant calls (newQuery s w i) := by
  have hr : s.accepted[i]? = some s.accepted[i] := List.getElem?_eq_getElem hi
  have hmem : s.accepted[i] ∈ s.accepted := List.getElem_mem hi
  generalize s.accepted[i] = request at hr hmem
  obtain ⟨ha, hm⟩ := h.accepted request hmem
  obtain ⟨q, he, hw, htarget, hdata⟩ := newQuery_effect h w hr
  obtain ⟨_, _, _, _, _, henabled⟩ := lookup_accepted h.heap (ha w)
  rw [he]
  refine ⟨QueryIsolation.newQuery_invariant h.heap henabled, ?_, ?_, ?_⟩
  · intro r hr
    exact h.accepted r (List.mem_of_mem_eraseIdx hr)
  · rw [hw, List.length_append, List.length_append, h.length]
    rfl
  · intro j t u ht hu
    rw [hw] at hu
    rcases Nat.lt_trichotomy j s.tasks.length with hlt | rfl | hgt
    · rw [List.getElem?_append_left hlt] at ht
      rw [List.getElem?_append_left (h.length ▸ hlt)] at hu
      exact h.waits j t u ht hu
    · rw [List.getElem?_concat_length] at ht
      rw [h.length, List.getElem?_concat_length] at hu
      obtain rfl := Option.some.inj ht
      obtain rfl := Option.some.inj hu
      refine ⟨ha, hm, htarget, ?_, ?_⟩
      · simp
      · intro hready
        have hne : request.method ≠ .post := of_decide_eq_true hready
        rw [hdata, queryData]
        split
        · next hpost => exact absurd hpost hne
        · rfl
    · rw [List.getElem?_append_right (Nat.le_of_lt hgt),
        List.getElem?_eq_none (by simp; omega)] at ht
      cases ht

theorem setData_eq {i : ℕ} {t : Task} (ht : s.tasks[i]? = some t) :
    setData s i = { s with
      heap := QueryIsolation.setData s.heap i t.request.body
      tasks := s.tasks.set i { t with ready := true } } := by
  simp only [setData, ht]

theorem setData_invariant (h : Invariant calls s) {i : ℕ}
    (he : (s.tasks[i]?).map Task.ready = some false) : Invariant calls (setData s i) := by
  obtain ⟨t, ht, hready⟩ := Option.map_eq_some_iff.mp he
  obtain ⟨q, hq, hw⟩ := h.waiting ht
  obtain ⟨hi, _⟩ := List.getElem?_eq_some_iff.mp ht
  obtain ⟨hj, _⟩ := List.getElem?_eq_some_iff.mp hq
  have hset := QueryIsolation.setData_eq hq t.request.body
  rw [setData_eq ht]
  refine ⟨QueryIsolation.setData_invariant h.heap _ hj, h.accepted, ?_, ?_⟩
  · rw [hset, List.length_set, List.length_set, h.length]
  · intro j u v hu hv
    rw [hset] at hv
    by_cases hij : i = j
    · subst hij
      rw [List.getElem?_set_self hi] at hu
      rw [List.getElem?_set_self hj] at hv
      obtain rfl := Option.some.inj hu
      obtain rfl := Option.some.inj hv
      refine ⟨hw.accepted, hw.handled, hw.target, fun _ => hw.posts hready, ?_⟩
      intro _
      rw [queryData, hw.posts hready]
    · rw [List.getElem?_set_ne hij] at hu hv
      exact h.waits j u v hu hv

theorem run_invariant (h : Invariant calls s) {i : ℕ}
    (he : (s.tasks[i]?).map Task.ready = some true) (host : ω → Host) (residue : Residue) (w : ω) :
    Invariant calls (run host residue s w i) := by
  obtain ⟨t, ht, hready⟩ := Option.map_eq_some_iff.mp he
  obtain ⟨hi, _⟩ := List.getElem?_eq_some_iff.mp ht
  obtain ⟨heq, hw⟩ := run_effect h ht hready host residue w
  have hj : i < s.heap.waiting.length := h.length ▸ hi
  rw [heq]
  refine ⟨QueryIsolation.run_invariant h.heap w hj, h.accepted, ?_, ?_⟩
  · rw [hw, List.length_eraseIdx_of_lt hi, List.length_eraseIdx_of_lt hj, h.length]
  · intro j u v hu hv
    rw [hw] at hv
    rw [List.getElem?_eraseIdx] at hu hv
    split at hu
    · next hlt =>
      rw [if_pos hlt] at hv
      exact h.waits j u v hu hv
    · next hge =>
      rw [if_neg hge] at hv
      exact h.waits (j + 1) u v hu hv

theorem invariant_inductive (host : ω → Host) (residue : Residue)
    (calls : List (Registration ω σ)) :
    Inductive (processing host residue calls) (Invariant calls) where
  initial := by
    obtain ⟨hw, _⟩ := QueryIsolation.initial_quiet calls
    refine ⟨QueryIsolation.initial_invariant calls, by simp [processing], ?_, ?_⟩
    · exact (congrArg List.length hw).symm
    · intro i t q ht
      cases ht
  step := by
    intro s e h he
    cases e with
    | enter w request => exact enter_invariant h host residue w request
    | newQuery w i => exact newQuery_invariant h w he.2
    | setData i => exact setData_invariant h he.2
    | run w i => exact run_invariant h he.2 host residue w

def atomicEvents (calls : List (Registration ω σ)) (s : State ω σ) :
    Event ω → List (AtomicService.Event ω Request)
  | .enter w request =>
    if Admitted calls w request then [.call request] else [.call request, .answer w request]
  | .newQuery _ _ | .setData _ => []
  | .run w i => ((s.tasks[i]?).map fun t => AtomicService.Event.answer w t.request).toList

theorem view_enter (h : Invariant calls s) (host : ω → Host) (residue : Residue) (w : ω)
    (request : Request) :
    Execution (atomic host residue calls) (view s) (atomicEvents calls s (.enter w request))
      (view (enter host s w request)) := by
  have hentered : ((s.entered ++ [request] : List Request) : Multiset Request) =
      (s.entered : Multiset Request) + {request} := (Multiset.coe_add _ _).symm
  rcases enter_cases h host residue w request with ⟨ha, he⟩ | ⟨ha, he⟩
  · have hview : view (enter host s w request) =
        (atomic host residue calls).next (view s) (.call request) := by
      have haccepted : ((s.accepted ++ [request] : List Request) : Multiset Request) =
        (s.accepted : Multiset Request) + {request} := (Multiset.coe_add _ _).symm
      rw [he]
      simp only [view, hentered, haccepted, atomic, AtomicService.service, AtomicService.next]
      rw [Multiset.add_assoc, Multiset.add_comm {request}, Multiset.add_assoc]
    rw [hview, atomicEvents, if_pos ha]
    exact Execution.single (S := atomic host residue calls) trivial
  · rw [he, atomicEvents, if_neg ha]
    have hcall := AtomicService.call_answer (alone host residue calls) (view s) w request
    simpa only [view, hentered, atomic] using hcall

theorem view_newQuery (h : Invariant calls s) (w : ω) {i : ℕ} (hi : i < s.accepted.length) :
    view (newQuery s w i) = view s := by
  have hr : s.accepted[i]? = some s.accepted[i] := List.getElem?_eq_getElem hi
  obtain ⟨q, he, _⟩ := newQuery_effect h w hr
  rw [he]
  simp only [view, List.map_append, ← Multiset.coe_add, ← AtomicService.coe_eraseIdx hr]
  rw [Multiset.add_assoc, Multiset.add_comm {_}]
  rfl

theorem requests_setData {i : ℕ} {t : Task} (ht : s.tasks[i]? = some t) :
    (s.tasks.set i { t with ready := true }).map Task.request = s.tasks.map Task.request :=
  QueryIsolation.map_set_of_eq ht rfl

theorem view_setData {i : ℕ} (he : (s.tasks[i]?).map Task.ready = some false) :
    view (setData s i) = view s := by
  obtain ⟨t, ht, _⟩ := Option.map_eq_some_iff.mp he
  simp only [setData_eq ht, view, requests_setData ht]

theorem view_run (h : Invariant calls s) {i : ℕ}
    (he : (s.tasks[i]?).map Task.ready = some true) (host : ω → Host) (residue : Residue)
    (w : ω) :
    Execution (atomic host residue calls) (view s) (atomicEvents calls s (.run w i))
      (view (run host residue s w i)) := by
  obtain ⟨t, ht, hready⟩ := Option.map_eq_some_iff.mp he
  obtain ⟨heq, _⟩ := run_effect h ht hready host residue w
  have hmap : (s.tasks.map Task.request)[i]? = some t.request := by
    rw [List.getElem?_map, ht]
    rfl
  have hview : view (run host residue s w i) =
      (atomic host residue calls).next (view s) (.answer w t.request) := by
    rw [heq]
    simp only [view, atomic, AtomicService.service, AtomicService.next]
    rw [← AtomicService.coe_eraseIdx hmap, List.eraseIdx_map, ← Multiset.add_assoc,
      Multiset.add_comm _ {_}, Multiset.singleton_add, Multiset.erase_cons_head]
  have hpending : t.request ∈ (view s).pending :=
    Multiset.mem_add.mpr (Or.inr (Multiset.mem_coe.mpr (List.mem_of_getElem? hmap)))
  rw [hview, atomicEvents, ht]
  exact Execution.single (S := atomic host residue calls) hpending

/-- However the calls overlap, each could have been answered in one step. -/
theorem processing_refines_atomic (host : ω → Host) (residue : Residue)
    (calls : List (Registration ω σ)) :
    Refinement (processing host residue calls) (atomic host residue calls) (Invariant calls) view
      (atomicEvents calls) where
  invariant := invariant_inductive host residue calls
  initial := rfl
  step := by
    intro s e h he
    cases e with
    | enter w request => exact view_enter h host residue w request
    | newQuery w i => exact view_newQuery h w he.2 ▸ .refl _
    | setData i => exact view_setData he.2 ▸ .refl _
    | run w i => exact view_run h he.2 host residue w

def pending (s : State ω σ) : List Request := s.accepted ++ s.tasks.map Task.request

theorem conserved_of_reachable (h : Reachable (processing host residue calls) s) :
    (s.done.map AtomicService.Answer.call ++ pending s).Perm s.entered := by
  have ha := AtomicService.reachable_invariant
    ((processing_refines_atomic host residue calls).reachable h)
  exact Multiset.coe_eq_coe.mp ha.conserved

def steps (t : Task) : ℕ := if t.ready then 1 else 2

def rank (s : State ω σ) : ℕ := 3 * s.accepted.length + (s.tasks.map steps).sum

theorem pending_of_rank (h : rank s = 0) : pending s = [] := by
  have haccepted : s.accepted = [] := by
    rw [← List.length_eq_zero_iff]
    unfold rank at h
    omega
  have htasks : s.tasks = [] := by
    cases ht : s.tasks with
    | nil => rfl
    | cons task rest =>
      rw [rank, ht, List.map_cons, List.sum_cons, steps] at h
      split at h <;> omega
  rw [pending, haccepted, htasks]
  rfl

/-- A step of a call under way, in the world `w`. -/
def Inner (w : ω) : Event ω → Prop
  | .enter _ _ => False
  | .newQuery v _ | .run v _ => v = w
  | .setData _ => True

theorem inner_effect (h : Invariant calls s) {w : ω} {e : Event ω} (hi : Inner w e)
    (he : Enabled s e) (host : ω → Host) (residue : Residue) :
    (next host residue s e).entered = s.entered ∧
      pending (next host residue s e) ⊆ pending s ∧
      ((next host residue s e).done = s.done ∨ ∃ r ∈ pending s,
        (next host residue s e).done = s.done ++ [⟨w, r, alone host residue calls w r⟩]) := by
  cases e with
  | enter v request => exact hi.elim
  | newQuery v i =>
    have hr := List.getElem?_eq_getElem he.2
    obtain ⟨q, heq, _⟩ := newQuery_effect h v hr
    have hmem := List.mem_of_getElem? hr
    rw [next, heq]
    refine ⟨rfl, ?_, Or.inl rfl⟩
    intro r hp
    simp only [pending, List.map_append, List.mem_append, List.map_cons, List.map_nil,
      List.mem_singleton] at hp ⊢
    rcases hp with hp | hp | rfl
    · exact Or.inl (List.mem_of_mem_eraseIdx hp)
    · exact Or.inr hp
    · exact Or.inl hmem
  | setData i =>
    obtain ⟨t, ht, _⟩ := Option.map_eq_some_iff.mp he.2
    rw [next, setData_eq ht, pending, requests_setData ht]
    exact ⟨rfl, List.Subset.refl _, Or.inl rfl⟩
  | run v i =>
    obtain rfl : v = w := hi
    obtain ⟨t, ht, hready⟩ := Option.map_eq_some_iff.mp he.2
    obtain ⟨heq, _⟩ := run_effect h ht hready host residue v
    have hmem : t.request ∈ pending s :=
      List.mem_append_right _ (List.mem_map_of_mem (List.mem_of_getElem? ht))
    rw [next, heq]
    refine ⟨rfl, ?_, Or.inr ⟨_, hmem, rfl⟩⟩
    intro r hp
    rcases List.mem_append.mp hp with hp | hp
    · exact List.mem_append_left _ hp
    · rw [← List.eraseIdx_map] at hp
      exact List.mem_append_right _ (List.mem_of_mem_eraseIdx hp)

structure Calm (host : ω → Host) (residue : Residue) (calls : List (Registration ω σ)) (w : ω)
    (s : State ω σ) : Prop where
  invariant : Invariant calls s
  alive : s.alive
  returns : ∀ r ∈ pending s, (alone host residue calls w r).ended = .returned

/-- The processor with the door closed. -/
def closing (host : ω → Host) (residue : Residue) (calls : List (Registration ω σ)) (w : ω) :
    System (State ω σ) (Event ω) :=
  (processing host residue calls).restrict fun _ e => Inner w e

theorem calm_inductive (host : ω → Host) (residue : Residue) (calls : List (Registration ω σ))
    (w : ω) : Inductive (closing host residue calls w) (Calm host residue calls w) where
  initial := by
    refine ⟨(invariant_inductive host residue calls).initial, ?_, ?_⟩
    · intro d hd
      cases hd
    · intro r hr
      cases hr
  step := by
    rintro s e h ⟨henabled, hinner⟩
    obtain ⟨_, hpending, hdone⟩ := inner_effect h.invariant hinner henabled host residue
    refine ⟨(invariant_inductive host residue calls).step s e h.invariant henabled, ?_, ?_⟩
    · intro d hd
      rcases hdone with hdone | ⟨r, hr, hdone⟩
      · exact h.alive d (hdone ▸ hd)
      · rcases List.mem_append.mp (hdone ▸ hd) with hd | hd
        · exact h.alive d hd
        · obtain rfl := List.mem_singleton.mp hd
          exact Or.inl (h.returns r hr)
    · intro r hr
      exact h.returns r (hpending hr)

theorem rank_newQuery (h : Invariant calls s) (w : ω) {i : ℕ} (hi : i < s.accepted.length) :
    rank (newQuery s w i) < rank s := by
  obtain ⟨q, he, _⟩ := newQuery_effect h w (List.getElem?_eq_getElem hi)
  have hle : ∀ t, steps t ≤ 2 := by
    intro t
    unfold steps
    split <;> omega
  rw [he]
  simp only [rank, List.length_eraseIdx_of_lt hi, List.map_append, List.sum_append, List.map_cons,
    List.map_nil, List.sum_cons, List.sum_nil]
  have := hle ⟨s.accepted[i], decide (s.accepted[i].method ≠ .post)⟩
  omega

theorem rank_lowered (h : Invariant calls s) (ha : s.alive) (hpos : 0 < rank s)
    (host : ω → Host) (residue : Residue) (w : ω) :
    ∃ e, Inner w e ∧ Enabled s e ∧ rank (next host residue s e) < rank s := by
  by_cases hi : 0 < s.accepted.length
  · exact ⟨.newQuery w 0, rfl, ⟨ha, hi⟩, rank_newQuery h w hi⟩
  cases htasks : s.tasks with
  | nil =>
    rw [rank, htasks] at hpos
    simp at hpos
    omega
  | cons t rest =>
    have ht : s.tasks[0]? = some t := by rw [htasks]; rfl
    cases hready : t.ready with
    | false =>
      refine ⟨.setData 0, trivial, ⟨ha, ?_⟩, ?_⟩
      · simp [ht, hready]
      · simp only [next, setData, rank, htasks]
        simp [steps, hready]
    | true =>
      obtain ⟨heq, _⟩ := run_effect h ht hready host residue w
      refine ⟨.run w 0, rfl, ⟨ha, ?_⟩, ?_⟩
      · simp [ht, hready]
      · simp only [next, heq, rank, htasks]
        simp [steps, hready]

theorem entered_execution {w : ω} {es : List (Event ω)} {t : State ω σ}
    (h : Execution (closing host residue calls w) s es t) (hs : Invariant calls s) :
    Invariant calls t ∧ t.entered = s.entered := by
  induction h with
  | refl => exact ⟨hs, rfl⟩
  | tail _ he ih =>
    obtain ⟨hi, hentered⟩ := ih
    refine ⟨(invariant_inductive host residue calls).step _ _ hi he.1, ?_⟩
    exact (inner_effect hi he.2 he.1 host residue).1.trans hentered

/-- What a caller of the processor can rely on, whatever runs besides. -/
structure Linearized (host : ω → Host) (residue : Residue) (calls : List (Registration ω σ))
    (s : State ω σ) : Prop where
  answered : ∀ d ∈ s.done, d.result = alone host residue calls d.world d.call
  conserved : (s.done.map AtomicService.Answer.call ++ pending s).Perm s.entered
  drains : s.alive → ∀ w, (∀ r ∈ pending s, (alone host residue calls w r).ended = .returned) →
    ∃ es t, Execution (closing host residue calls w) s es t ∧ t.alive ∧
      (t.done.map AtomicService.Answer.call).Perm s.entered

def tableMade : Environment := { shortNames with prepare := fun _ => (1, none) }

def crossing : List (Event Environment) :=
  let create : Request := ⟨.post, .ofText "/query?", 11, true, .ofText "sql=create table t(a)"⟩
  [.enter shortNames create, .enter shortNames ⟨.get, .ofText "/file/icon.svg", 11, true, .empty⟩,
    .newQuery shortNames 1, .enter shortNames create, .newQuery shortNames 0,
    .newQuery shortNames 0, .setData 1, .run shortNames 1, .setData 1, .run tableMade 1]

def crossed : State Environment Path :=
  runTrace (processing (fun _ => emptyHost) id QueryIsolation.clientCalls)
    (processing (fun _ => emptyHost) id QueryIsolation.clientCalls).initial crossing

theorem crossed_reachable :
    Reachable (processing (fun _ => emptyHost) id QueryIsolation.clientCalls) crossed :=
  valid_trace_reachable (by decide +kernel)

end SharedResolver
