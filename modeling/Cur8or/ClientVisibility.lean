import Cur8or.ClientServer
import Cur8or.ClientTargets

/-! Which part of the filesystem a peer can learn about but through SQLite: two worlds that agree
below the interface root, and in what SQLite answers, are the same to every request and to every
run of the whole server. -/
namespace ClientVisibility

open CxxLibrary PosixPath UtilitiesAdaptors PathResolver HttpResponses MessageProcessing
open ClientMain ClientSql ClientTargets ClientSurvival HttpConnections TransitionSystem
open SimpleSession (ReadResult PendingWrite)

/-- Below the root, and without two dots in a row that a cut-off name could end in. -/
structure Clean (path : Path) : Prop where
  starts : interfaceRoot ++ [separator] <+: path
  dotless : ¬ dotDot <:+: path

theorem clean_join {t : Bytes} (h : ¬ dotDot <:+: t) : Clean (interfaceRoot ++ separator :: t) := by
  refine ⟨⟨t, by simp⟩, ?_⟩
  intro hd
  rcases infix_join (by decide) hd with hroot | ht
  · exact absurd hroot (by decide)
  · exact h ht

theorem Clean.eq_join {path : Path} (h : Clean path) :
    ∃ t, path = interfaceRoot ++ separator :: t ∧ ¬ dotDot <:+: t := by
  obtain ⟨t, rfl⟩ := h.starts
  refine ⟨t, by simp, ?_⟩
  intro ht
  exact h.dotless (ht.trans (List.suffix_append _ _).isInfix)

theorem Clean.confined {path : Path} (h : Clean path) : Confined path := by
  obtain ⟨t, rfl, _⟩ := h.eq_join
  exact confined_of_join t rfl (dotDot_notMem_components h.dotless)

theorem Clean.cString {path : Path} (h : Clean path) : Clean (cString path) := by
  obtain ⟨t, rfl, ht⟩ := h.eq_join
  have hroot : ∀ b ∈ interfaceRoot ++ [separator], decide (b ≠ 0) = true := by
    apply List.all_eq_true.mp
    decide
  have hcut : HttpResponses.cString (interfaceRoot ++ separator :: t) =
      interfaceRoot ++ separator :: t.takeWhile (· ≠ 0) := by
    rw [HttpResponses.cString, ← List.singleton_append, ← List.append_assoc,
      List.takeWhile_append_of_pos hroot, List.append_assoc, List.singleton_append]
  rw [hcut]
  exact clean_join fun hd => ht (hd.trans (List.takeWhile_prefix _).isInfix)

theorem Clean.index {path : Path} (h : Clean path) : Clean (append path (text "index.html")) := by
  have hne : path ≠ [] := by
    obtain ⟨t, rfl, _⟩ := h.eq_join
    simp
  obtain ⟨a, ha, hpa⟩ := append_eq_join (q := text "index.html") hne (by decide)
  refine ⟨h.starts.trans (prefix_append hne (by decide)), ?_⟩
  rw [ha]
  intro hd
  rcases infix_join (by decide) hd with hleft | hright
  · rcases hpa with rfl | rfl
    · exact h.dotless hleft
    · exact h.dotless (hleft.trans (List.prefix_append _ _).isInfix)
  · exact absurd hright (by decide)

variable {target : StringView}

def filePath (target : StringView) : Path :=
  interfaceRoot ++ target.bytes.drop (target.find separator 1)

theorem filePath_clean (hdots : ¬ dotDot <:+: target.bytes)
    (hm : separator ∈ target.bytes.drop 1) : Clean (filePath target) := by
  have hrest := rest_eq_cons hm
  rw [filePath, hrest]
  apply clean_join
  intro hd
  apply hdots
  have hsuffix : separator :: cutAfter separator (target.bytes.drop 1) <:+ target.bytes :=
    hrest ▸ List.drop_suffix _ _
  exact hd.trans ((List.suffix_cons _ _).trans hsuffix).isInfix

theorem fileHandler_eq (env : Environment) (target data : StringView) :
    (fileHandler env interfaceRoot target data).2 =
      if separator ∈ target.bytes.drop 1 then answerAt env (filePath target)
      else ⟨[.error (text "No file path")], .ok ()⟩ := by
  rcases fileHandler_cases env target data with ⟨hm, hrun⟩ | ⟨hm, f, hdir, hrun⟩ |
    ⟨hm, d, hdir, hrun⟩
  · rw [hrun, if_neg hm]
  · rw [hrun, if_pos hm, answerAt, filePath, hdir]
  · rw [hrun, if_pos hm, answerAt, filePath, hdir]

theorem fileHandler_clean {env : Environment} (data : StringView)
    (hdots : ¬ dotDot <:+: target.bytes) {path : Path}
    (h : .file path ∈ (fileHandler env interfaceRoot target data).2.returns) : Clean path := by
  rw [fileHandler_eq] at h
  split at h
  · next hm =>
    have hclean := filePath_clean hdots hm
    rw [answerAt] at h
    split at h
    · cases h
    · obtain rfl := Return.file.inj (List.mem_singleton.mp h)
      split
      · exact hclean.index
      · exact hclean
  · simp at h

theorem outcome_clean {env : Environment} {program : QueryProgram Path}
    (ha : Accepted (client env) target)
    (hfind : (client env).find? (routeKey target.bytes) = some program) (data : StringView)
    {path : Path} (h : .file path ∈ (program.outcome target data).returns) : Clean path := by
  rw [client_find] at hfind
  split at hfind
  · obtain rfl := Option.some.inj hfind
    exact absurd h (queryHandler_returns_no_file [] target data path)
  · split at hfind
    · obtain rfl := Option.some.inj hfind
      exact fileHandler_clean data ha.confined h
    · split at hfind
      · obtain rfl := Option.some.inj hfind
        obtain rfl := Return.file.inj (List.mem_singleton.mp h)
        exact (clean_join (t := text "query.html") (by decide))
      · cases hfind

structure FilesAgree (v w : World) : Prop where
  isDirectory : ∀ path, Confined path → v.env.isDirectory path = w.env.isDirectory path
  openFile : ∀ path, Confined path → v.host.openFile path = w.host.openFile path

/-- The same answer to every text; the files SQLite reads lie outside the root. -/
structure SqliteAgrees (v w : World) : Prop where
  verdict : ∀ sql, verdict v.env sql = verdict w.env sql
  errstr : v.env.errstr = w.env.errstr

structure Agree (v w : World) : Prop where
  files : FilesAgree v w
  sqlite : SqliteAgrees v w
  beastVersion : v.host.beastVersion = w.host.beastVersion
  lookup : v.env.lookup = w.env.lookup
  serialize : v.env.serialize = w.env.serialize

variable {v w : World} {residue : Residue}

theorem answerAt_agree (h : Agree v w) {path : Path} (hp : Confined path) :
    answerAt v.env path = answerAt w.env path := by
  rw [answerAt, answerAt, h.files.isDirectory path hp]

theorem queryHandler_agree (h : Agree v w) (captured : Path) (target data : StringView) :
    queryHandler v.env captured target data = queryHandler w.env captured target data := by
  have hrun : ∀ sql, runSql v.env sql = runSql w.env sql := by
    intro sql
    rw [runSql_eq, runSql_eq, h.sqlite.verdict, h.sqlite.errstr]
  simp only [queryHandler, h.lookup, h.serialize, hrun]

theorem find_agree (h : Agree v w) {program : QueryProgram Path}
    (ha : Accepted (client v.env) target)
    (hv : (client v.env).find? (routeKey target.bytes) = some program) (data : StringView) :
    ∃ other, (client w.env).find? (routeKey target.bytes) = some other ∧
      program.outcome target data = other.outcome target data := by
  rw [client_find] at hv ⊢
  split at hv
  · next hk =>
    obtain rfl := Option.some.inj hv
    refine ⟨_, if_pos hk, ?_⟩
    exact congrArg Prod.snd (queryHandler_agree h [] target data)
  · next hk =>
    rw [if_neg hk]
    split at hv
    · next hfile =>
      obtain rfl := Option.some.inj hv
      refine ⟨_, if_pos hfile, ?_⟩
      change (fileHandler v.env interfaceRoot target data).2 =
        (fileHandler w.env interfaceRoot target data).2
      rw [fileHandler_eq, fileHandler_eq]
      split
      · next hm => exact answerAt_agree h (filePath_clean ha.confined hm).confined
      · rfl
    · next hfile =>
      rw [if_neg hfile]
      exact ⟨program, hv, rfl⟩

theorem errorResponse_agree (h : Agree v w) (request : Request) (status : Status)
    (message : Bytes) : errorResponse v.host request status message =
      errorResponse w.host request status message := by
  rw [errorResponse, errorResponse, h.beastVersion]

theorem callback_agree (h : Agree v w) (f : ResponseFinalizer) {x : Return}
    (hx : ∀ path, x = .file path → Clean path) :
    f.callback v.host residue x = f.callback w.host residue x := by
  cases x with
  | error message =>
    simp only [ResponseFinalizer.callback, ResponseFinalizer.errorResponseCallback,
      errorResponse_agree h]
  | data data =>
    simp only [ResponseFinalizer.callback, ResponseFinalizer.dataResponseCallback, dataResponse,
      h.beastVersion]
  | file path =>
    have hopen := h.files.openFile _ (hx path rfl).cString.confined
    simp only [ResponseFinalizer.callback, ResponseFinalizer.fileResponseCallback, fileResponse,
      hopen, errorResponse_agree h, h.beastVersion]

theorem answer_agree (h : Agree v w) (f : ResponseFinalizer) {returns : List Return}
    (hx : ∀ path, .file path ∈ returns → Clean path) :
    f.answer v.host residue returns = f.answer w.host residue returns := by
  induction returns generalizing f with
  | nil => rfl
  | cons x returns ih =>
    have hhead : f.callback v.host residue x = f.callback w.host residue x :=
      callback_agree h f fun path hp => hx path (hp ▸ List.mem_cons_self)
    rw [ResponseFinalizer.answer, ResponseFinalizer.answer, hhead]
    dsimp only
    rw [ih _ fun path hp => hx path (List.mem_cons_of_mem _ hp)]

theorem supportedOperation_agree (v w : World) (target : StringView) :
    supportedOperation (client v.env) target = supportedOperation (client w.env) target := by
  have hcontains : (client v.env).contains = (client w.env).contains := by
    funext key
    simp only [UnorderedMap.contains, client_find]
    split_ifs <;> rfl
  rw [supportedOperation_eq, supportedOperation_eq, hcontains]

/-- One request cannot tell the two worlds apart. -/
theorem process_agree (h : Agree v w) (residue : Residue) (request : Request) :
    process v.host residue (client v.env) request =
      process w.host residue (client w.env) request := by
  have hsupported := supportedOperation_agree v w request.target
  cases hs : supportedOperation (client v.env) request.target with
  | error f =>
    rw [process_undecided v.host residue request hs,
      process_undecided w.host residue request (hsupported.symm.trans hs)]
  | ok supported =>
    cases supported with
    | false =>
      rw [process_refused v.host residue request hs,
        process_refused w.host residue request (hsupported.symm.trans hs), errorResponse_agree h]
    | true =>
      have hv := supportedOperation_iff.mp hs
      have hw := accepted_any hv w.env
      cases hm : handledVerb request.method with
      | false =>
        rw [process_unknown v.host residue request hv hm,
          process_unknown w.host residue request hw hm, errorResponse_agree h]
      | true =>
        obtain ⟨program, hfind, hpv⟩ := process_dispatched v.host residue request hv hm
        obtain ⟨other, hfind', hpw⟩ := process_dispatched w.host residue request hw hm
        obtain ⟨twin, htwin, hout⟩ := find_agree h hv hfind (queryData request)
        obtain rfl := Option.some.inj (htwin.symm.trans hfind')
        rw [hpv, hpw, ← hout]
        dsimp only
        rw [answer_agree h _ fun path hp => outcome_clean hv hfind (queryData request) hp]

inductive SameStep : HttpConnections.Event World → HttpConnections.Event World → Prop where
  | dispatch : SameStep .dispatch .dispatch
  | readDone (result : ReadResult Request) (rest : List Request) :
    SameStep (.readDone result rest) (.readDone result rest)
  | respond {v w : World} (h : Agree v w) : SameStep (.respond v) (.respond w)
  | writeDone (w : PendingWrite) (ok : Bool) : SameStep (.writeDone w ok) (.writeDone w ok)

variable {κ ι : Type*}

/-- The same completions in the same order, in worlds that agree below the root. -/
inductive SameEvent : ClientServer.Event κ ι → ClientServer.Event κ ι → Prop where
  | accept (result : Except ι κ) : SameEvent (.accept result) (.accept result)
  | act (i : ℕ) {e d : HttpConnections.Event World} (h : SameStep e d) :
    SameEvent (.act i e) (.act i d)

/-- All that a connection does and holds, apart from the worlds it remembers. -/
structure Alike (s t : HttpConnections.State World) : Prop where
  session : s.session = t.session
  loading : s.loading = t.loading
  wire : s.wire = t.wire
  unreturned : s.unreturned.map Prod.snd = t.unreturned.map Prod.snd

structure SameServer (s t : ClientServer.State κ ι) : Prop where
  listener : s.listener = t.listener
  connections : List.Forall₂ Alike s.connections t.connections

variable {s t : HttpConnections.State World}

theorem Alike.alive_iff (h : Alike s t) : s.alive ↔ t.alive := by
  have hall : ∀ c : HttpConnections.State World,
      c.alive ↔ ∀ q ∈ c.unreturned.map Prod.snd, q = .endless := by
    intro c
    unfold State.alive
    cases c.unreturned with
    | none => simp
    | some q => simp
  rw [hall, hall, h.unreturned]

theorem Alike.stuck_eq (h : Alike s t) : s.stuck = t.stuck := by
  simpa [State.stuck] using congrArg Option.isSome h.unreturned

theorem respond_alike (h : Alike s t) (hw : Agree v w) :
    Alike (respond (clientProcessor residue) s v) (respond (clientProcessor residue) t w) := by
  have hcall : ∀ m, (clientProcessor residue).call v m = (clientProcessor residue).call w m :=
    process_agree hw residue
  cases hl : s.loading with
  | none =>
    have hl' := h.loading.symm.trans hl
    simp only [respond, hl, hl']
    exact h
  | some l =>
    obtain ⟨k, m⟩ := l
    have hl' := h.loading.symm.trans hl
    simp only [respond, hl, hl', hcall m]
    split
    · exact ⟨by rw [h.session], rfl, h.wire, h.unreturned⟩
    · exact ⟨h.session, rfl, h.wire, rfl⟩

theorem next_alike (residue : Residue) (h : Alike s t) {e d : HttpConnections.Event World}
    (he : SameStep e d) :
    (HttpConnections.Enabled s e ↔ HttpConnections.Enabled t d) ∧
      ClientServer.needsThread e = ClientServer.needsThread d ∧
      Alike (HttpConnections.next (clientProcessor residue) s e)
        (HttpConnections.next (clientProcessor residue) t d) := by
  have halive := h.alive_iff
  cases he with
  | dispatch =>
    refine ⟨?_, rfl, ?_, h.loading, h.wire, h.unreturned⟩
    · simp only [HttpConnections.Enabled, halive, h.session]
    · simp only [HttpConnections.next, h.session]
  | readDone result rest =>
    refine ⟨?_, rfl, ?_, ?_, h.wire, h.unreturned⟩
    · simp only [HttpConnections.Enabled, halive, h.session]
    · simp only [HttpConnections.next, processRequest, h.session]
    · simp only [HttpConnections.next, processRequest, h.session, h.loading]
  | respond hw =>
    refine ⟨?_, rfl, respond_alike h hw⟩
    simp only [HttpConnections.Enabled, h.stuck_eq, h.loading]
  | writeDone w ok =>
    refine ⟨?_, rfl, ?_, h.loading, ?_, h.unreturned⟩
    · simp only [HttpConnections.Enabled, halive, h.session]
    · simp only [HttpConnections.next, responseStatus, h.session]
    · simp only [HttpConnections.next, responseStatus, h.session, h.wire]

theorem SameServer.alive_iff {s t : ClientServer.State κ ι} (h : SameServer s t) :
    s.alive ↔ t.alive := by
  have hconnections : ∀ {l m : List (HttpConnections.State World)}, List.Forall₂ Alike l m →
      ((∀ c ∈ l, c.alive) ↔ ∀ c ∈ m, c.alive) ∧
      ((∃ c ∈ l, c.session.closed = false) ↔ ∃ c ∈ m, c.session.closed = false) := by
    intro l m hlm
    induction hlm with
    | nil => simp
    | cons hab _ ih =>
      simp only [List.forall_mem_cons, List.exists_mem_cons_iff, hab.alive_iff, hab.session, ih.1,
        ih.2, and_self]
  obtain ⟨halive, hopen⟩ := hconnections h.connections
  simp only [ClientServer.State.alive, ClientServer.State.working, halive, hopen, h.listener]

theorem SameServer.busy_eq {s t : ClientServer.State κ ι} (h : SameServer s t) :
    s.busy = t.busy := by
  have hconnections : ∀ {l m : List (HttpConnections.State World)}, List.Forall₂ Alike l m →
      l.countP (·.loading.isSome) = m.countP (·.loading.isSome) := by
    intro l m hlm
    induction hlm with
    | nil => rfl
    | cons hab _ ih => rw [List.countP_cons, List.countP_cons, ih, hab.loading]
  exact hconnections h.connections

theorem server_step {s t : ClientServer.State κ ι} (h : SameServer s t)
    {e d : ClientServer.Event κ ι} (he : SameEvent e d) (hs : ClientServer.Enabled s e) :
    ClientServer.Enabled t d ∧
      SameServer (ClientServer.next residue s e) (ClientServer.next residue t d) := by
  cases he with
  | accept result =>
    obtain ⟨ha, hbusy, haccept⟩ := hs
    refine ⟨⟨h.alive_iff.mp ha, h.busy_eq ▸ hbusy, h.listener ▸ haccept⟩, ?_, ?_⟩
    · simp only [ClientServer.next, h.listener]
    · cases result with
      | ok socket => exact List.rel_append h.connections (.cons ⟨rfl, rfl, rfl, rfl⟩ .nil)
      | error e => exact h.connections
  | act i hstep =>
    obtain ⟨ha, hthread, c, hc, henabled⟩ := hs
    obtain ⟨c', hc', halike⟩ := Interleaving.lockstep_getElem? h.connections hc
    obtain ⟨hiff, hneeds, _⟩ := next_alike residue halike hstep
    refine ⟨⟨h.alive_iff.mp ha, ?_, c', hc', hiff.mp henabled⟩, h.listener, ?_⟩
    · rw [← hneeds, ← h.busy_eq]
      exact hthread
    · exact Interleaving.lockstep_modify (fun _ _ hab => (next_alike residue hab hstep).2.2)
        h.connections i

/-- No run of the server shows its peers anything of what lies outside the root, unless SQLite's
answers do. -/
theorem runs_blind_outside_root {succeeds : SocketListener.SetupCall → Bool}
    {es ds : List (ClientServer.Event κ ι)} (he : List.Forall₂ SameEvent es ds)
    (hv : ValidTrace (ClientServer.server residue succeeds) (ClientServer.start succeeds) es) :
    ValidTrace (ClientServer.server residue succeeds) (ClientServer.start succeeds) ds ∧
      SameServer
        (runTrace (ClientServer.server residue succeeds) (ClientServer.start succeeds) es)
        (runTrace (ClientServer.server residue succeeds) (ClientServer.start succeeds) ds) :=
  ValidTrace.lockstep (R := SameServer) (Q := SameEvent)
    (fun _ _ _ _ h hq hs => server_step h hq hs) ⟨rfl, .nil⟩ he hv

def secretHost : Host :=
  { emptyHost with
    openFile := fun path =>
      if path = text "/etc/passwd" then .opened (text "root") else .noSuchFile }

theorem secretHost_agrees : Agree ⟨shortNames, emptyHost⟩ ⟨shortNames, secretHost⟩ := by
  refine ⟨⟨fun _ _ => rfl, ?_⟩, ⟨fun _ => rfl, rfl⟩, rfl, rfl, rfl⟩
  intro path hp
  have hne : path ≠ text "/etc/passwd" := by
    rintro rfl
    exact absurd hp.starts (by decide)
  exact (if_neg hne).symm

theorem overlapping_same : List.Forall₂ SameEvent
    (ClientServer.overlapping ⟨shortNames, emptyHost⟩)
    (ClientServer.overlapping ⟨shortNames, secretHost⟩) := by
  have h := secretHost_agrees
  exact .cons (.accept _) (.cons (.accept _) (.cons (.act 0 .dispatch) (.cons (.act 1 .dispatch)
    (.cons (.act 0 (.readDone _ _)) (.cons (.act 1 (.readDone _ _)) (.cons (.act 1 (.respond h))
      (.cons (.act 0 (.respond h)) (.cons (.act 0 (.writeDone _ _))
        (.cons (.accept _) .nil)))))))))

theorem runs_blind_outside_root_overlapping :
    SameServer ClientServer.overlapped
      (runTrace (ClientServer.server id fun _ => true) (ClientServer.start fun _ => true)
        (ClientServer.overlapping ⟨shortNames, secretHost⟩)) :=
  (runs_blind_outside_root overlapping_same (by decide +kernel)).2

end ClientVisibility
