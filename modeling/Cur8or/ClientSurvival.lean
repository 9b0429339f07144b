import Cur8or.ClientSql
import Cur8or.HttpConnections

/-! Which requests the client survives. A functor that throws below a `noexcept` function, or
follows an iterator past the end, answers nothing and takes every other connection with it; one
whose rows have no end keeps its thread. -/
namespace ClientSurvival

open CxxLibrary PosixPath UtilitiesAdaptors PathResolver HttpResponses MessageProcessing
open ClientMain ClientSql HttpConnections

variable {env : Environment} {host : Host} {residue : Residue} {request : Request}

def Splits (target : StringView) : Prop :=
  target.bytes.head? = some separator → ¬ dotDot <:+: target.bytes →
    0 < ParamPathAdaptor.standard.passes target

def Statable (env : Environment) (target : StringView) : Prop :=
  separator ∉ target.bytes.drop 1 ∨ ∃ directory,
    env.isDirectory (interfaceRoot ++ target.bytes.drop (target.find separator 1)) = .ok directory

/-- Every text that can be found under the key comes to an end. -/
def FoundEnds (env : Environment) (data : StringView) : Prop :=
  ∀ sql, querySql env.lookup data = .ok sql → Ends env sql

def Runs (env : Environment) (target data : StringView) : Prop :=
  (routeKey target.bytes = text "file" → Statable env target) ∧
    (routeKey target.bytes = text "query" → CarriesSql data ∧ FoundEnds env data)

def Stalls (env : Environment) (target data : StringView) : Prop :=
  routeKey target.bytes = text "query" ∧ CarriesSql data ∧ ¬ FoundEnds env data

def Survives (env : Environment) (request : Request) : Prop :=
  Splits request.target ∧
    (Accepted (client env) request.target → handledVerb request.method = true →
      (routeKey request.target.bytes = text "file" → Statable env request.target) ∧
      (routeKey request.target.bytes = text "query" →
        request.method = .post ∧ CarriesSql request.body ∧ FoundEnds env request.body))

def Hangs (env : Environment) (request : Request) : Prop :=
  Accepted (client env) request.target ∧ routeKey request.target.bytes = text "query" ∧
    request.method = .post ∧ CarriesSql request.body ∧ ¬ FoundEnds env request.body

theorem splits_iff (pathMap : VirtualPathMap Path) (target : StringView) :
    (∃ b, supportedOperation pathMap target = .ok b) ↔ Splits target := by
  constructor
  · rintro ⟨b, hb⟩ hslash hdots
    rw [supportedOperation_eq, if_pos ⟨hslash, hdots⟩, firstName_eq hslash] at hb
    split at hb
    · next hp => exact hp
    · cases hb
  · exact supportedOperation_total pathMap

theorem undecided_front {pathMap : VirtualPathMap Path} {target : StringView} {f : Fault}
    (h : supportedOperation pathMap target = .error f) : f = .emptyFront := by
  rw [supportedOperation_eq] at h
  split at h
  · next ht =>
    rw [firstName_eq ht.1] at h
    split at h
    · cases h
    · exact (Except.error.inj h).symm
  · cases h

theorem carriesSql_queryData_iff (P : StringView → Prop) :
    CarriesSql (queryData request) ∧ P (queryData request) ↔
      request.method = .post ∧ CarriesSql request.body ∧ P request.body := by
  cases hv : request.method with
  | post => simp [queryData, hv]
  | get | head | other code => simp [queryData, hv, not_carriesSql_empty]

theorem runs_iff : Runs env request.target (queryData request) ↔
    (routeKey request.target.bytes = text "file" → Statable env request.target) ∧
      (routeKey request.target.bytes = text "query" →
        request.method = .post ∧ CarriesSql request.body ∧ FoundEnds env request.body) := by
  rw [Runs, carriesSql_queryData_iff]

theorem stalls_iff : Stalls env request.target (queryData request) ↔
    routeKey request.target.bytes = text "query" ∧
      request.method = .post ∧ CarriesSql request.body ∧ ¬ FoundEnds env request.body := by
  rw [Stalls, carriesSql_queryData_iff fun data => ¬ FoundEnds env data]

/-- A functor of the client returns once where it runs, does not return where it stalls, and
elsewhere fails without an answer. -/
structure Decides (runs stalls : Prop) (run : Run) : Prop where
  answers : runs → ∃ r, run = ⟨[r], .ok ()⟩
  hangs : stalls → ¬ runs ∧ run = ⟨[], .error .endless⟩
  fails : ¬ runs → ¬ stalls → ∃ f, f ≠ .endless ∧ run = ⟨[], .error f⟩

theorem fileHandler_decides (env : Environment) (target data : StringView) :
    Decides (Statable env target) False (fileHandler env interfaceRoot target data).2 := by
  rcases fileHandler_cases env target data with ⟨hmem, hrun⟩ | ⟨hmem, f, hdir, hrun⟩ |
    ⟨hmem, directory, hdir, hrun⟩
  · exact ⟨fun _ => ⟨_, hrun⟩, False.elim, fun h => absurd (Or.inl hmem) h⟩
  · refine ⟨?_, False.elim, fun _ _ => ⟨f, ?_, hrun⟩⟩
    · rintro (h | ⟨directory, h⟩)
      · exact absurd hmem h
      · exact absurd (hdir.symm.trans h) (by simp)
    · rw [env.isDirectory_error hdir]
      decide
  · exact ⟨fun _ => ⟨_, hrun⟩, False.elim, fun h => absurd (Or.inr ⟨directory, hdir⟩) h⟩

theorem queryHandler_decides (env : Environment) (captured : Path) (target data : StringView) :
    Decides (CarriesSql data ∧ FoundEnds env data) (CarriesSql data ∧ ¬ FoundEnds env data)
      (queryHandler env captured target data).2 := by
  rcases queryHandler_cases env captured target data with ⟨hno, _, hrun⟩ | ⟨hc, sql, hsql, hrun⟩
  · exact ⟨fun h => absurd h.1 hno, fun h => absurd h.1 hno,
      fun _ _ => ⟨.pastTheEnd, by decide, hrun⟩⟩
  · have hends : FoundEnds env data ↔ Ends env sql :=
      ⟨fun h => h sql hsql, fun h s hs => Except.ok.inj (hsql.symm.trans hs) ▸ h⟩
    rw [hrun, hends, ends_iff]
    cases hv : verdict env sql with
    | failure code | result names rows terminal =>
      refine ⟨fun _ => ⟨_, rfl⟩, fun h => absurd (by simp) h.2, fun h => absurd ⟨hc, ?_⟩ h⟩
      simp
    | never =>
      exact ⟨fun h => absurd rfl h.2, fun h => ⟨fun hn => h.2 hn.2, rfl⟩,
        fun _ h => absurd ⟨hc, by simp⟩ h⟩

theorem Decides.congr {runs stalls runs' stalls' : Prop} {run : Run} (h : Decides runs stalls run)
    (hr : runs' ↔ runs) (hs : stalls' ↔ stalls) : Decides runs' stalls' run := by
  rwa [hr, hs]

theorem outcome_decides {target : StringView} {program : QueryProgram Path}
    (hfind : (client env).find? (routeKey target.bytes) = some program) (data : StringView) :
    Decides (Runs env target data) (Stalls env target data) (program.outcome target data) := by
  have hapart : text "query" ≠ text "file" := by decide
  rw [client_find] at hfind
  split at hfind
  · next hkey =>
    obtain rfl := Option.some.inj hfind
    refine (queryHandler_decides env [] target data).congr ?_ ?_
    · simp [Runs, hkey, hapart]
    · simp [Stalls, hkey]
  · next hquery =>
    have hnone : ¬ Stalls env target data := fun h => hquery h.1
    split at hfind
    · next hkey =>
      obtain rfl := Option.some.inj hfind
      refine (fileHandler_decides env target data).congr ?_ (iff_false_intro hnone)
      simp [Runs, hkey, hapart.symm]
    · next hfile =>
      split at hfind
      · obtain rfl := Option.some.inj hfind
        exact ⟨fun _ => ⟨_, rfl⟩, fun h => absurd h hnone,
          fun h => absurd ⟨fun hf => absurd hf hfile, fun hq => absurd hq hquery⟩ h⟩
      · cases hfind

theorem completion_of_ne {f : Fault} (h : f ≠ .endless) :
    completion (.error f) ≠ .returned ∧ completion (.error f) ≠ .endless := by
  cases f with
  | outOfRange | filesystemError | emptyFront | pastTheEnd => decide
  | endless => exact absurd rfl h

/-- What becomes of a request, in full. -/
inductive Fate (env : Environment) (request : Request) (handled : Processing) : Prop
  | answered {r : Response} : Survives env request → ¬ Hangs env request →
      handled.ended = .returned → handled.responses = [r] → r.Carries request →
      Fate env request handled
  | hung : ¬ Survives env request → Hangs env request → handled.ended = .endless →
      handled.responses = [] → Fate env request handled
  | ended : ¬ Survives env request → ¬ Hangs env request → handled.ended ≠ .returned →
      handled.ended ≠ .endless → handled.responses = [] → Fate env request handled

theorem process_fate (env : Environment) (host : Host) (residue : Residue) (request : Request) :
    Fate env request (process host residue (client env) request) := by
  cases hs : supportedOperation (client env) request.target with
  | error f =>
    obtain ⟨hr, he⟩ := completion_of_ne (f := f) (by rw [undecided_front hs]; decide)
    rw [process_undecided host residue request hs]
    refine .ended ?_ ?_ hr he rfl
    · rintro ⟨hsplits, _⟩
      obtain ⟨b, hb⟩ := (splits_iff (client env) request.target).mpr hsplits
      exact absurd (hs.symm.trans hb) (by simp)
    · rintro ⟨ha, _⟩
      exact absurd (hs.symm.trans (supportedOperation_iff.mpr ha)) (by simp)
  | ok supported =>
    have hsplits := (splits_iff (client env) request.target).mp ⟨supported, hs⟩
    cases supported with
    | false =>
      have hno : ¬ Accepted (client env) request.target := fun ha =>
        absurd (hs.symm.trans (supportedOperation_iff.mpr ha)) (by simp)
      rw [process_refused host residue request hs]
      exact .answered ⟨hsplits, fun ha => absurd ha hno⟩ (fun h => hno h.1) rfl rfl
        (errorResponse_carries ..)
    | true =>
      have ha := supportedOperation_iff.mp hs
      cases hm : handledVerb request.method with
      | false =>
        have hpost : request.method ≠ .post := by
          rintro hv
          rw [hv] at hm
          cases hm
        rw [process_unknown host residue request ha hm]
        exact .answered ⟨hsplits, fun _ hh => absurd (hm.symm.trans hh) (by decide)⟩
          (fun h => hpost h.2.2.1) rfl rfl (errorResponse_carries ..)
      | true =>
        obtain ⟨program, hfind, hprocess⟩ := process_dispatched host residue request ha hm
        have hd := outcome_decides hfind (queryData request)
        have hsurvives : Survives env request ↔ Runs env request.target (queryData request) :=
          ⟨fun h => runs_iff.mpr (h.2 ha hm), fun h => ⟨hsplits, fun _ _ => runs_iff.mp h⟩⟩
        have hhangs : Hangs env request ↔ Stalls env request.target (queryData request) :=
          ⟨fun h => stalls_iff.mpr h.2, fun h => ⟨ha, stalls_iff.mp h⟩⟩
        rw [← hsurvives, ← hhangs] at hd
        rw [hprocess]
        by_cases hstalls : Hangs env request
        · obtain ⟨hno, hrun⟩ := hd.hangs hstalls
          rw [hrun]
          exact .hung hno hstalls rfl rfl
        by_cases hruns : Survives env request
        · obtain ⟨r, hrun⟩ := hd.answers hruns
          rw [hrun]
          exact .answered hruns hstalls rfl rfl (ResponseFinalizer.callback_carries ..)
        · obtain ⟨f, hf, hrun⟩ := hd.fails hruns hstalls
          obtain ⟨hr, he⟩ := completion_of_ne hf
          rw [hrun]
          exact .ended hruns hstalls hr he rfl

theorem ended_iff (env : Environment) (host : Host) (residue : Residue) (request : Request) :
    ((process host residue (client env) request).ended = .returned ↔ Survives env request) ∧
      ((process host residue (client env) request).ended = .endless ↔ Hangs env request) := by
  cases process_fate env host residue request with
  | answered hs hh he _ _ => simp [hs, hh, he]
  | hung hs hh he _ => simp [hs, hh, he]
  | ended hs hh hr he _ => simp [hs, hh, hr, he]

/-- The client as a processor; what it asks of the world is asked anew for every request. -/
structure World where
  env : Environment
  host : Host

def clientProcessor (residue : Residue) : Processor World where
  call w m := process w.host residue (client w.env) m
  once := by
    intro w m
    cases process_fate w.env w.host residue m with
    | answered _ _ he hr hc => exact Or.inl ⟨he, _, hr, hc⟩
    | hung _ _ he hr => exact Or.inr ⟨by rw [he]; decide, hr⟩
    | ended _ _ he _ hr => exact Or.inr ⟨he, hr⟩

end ClientSurvival
