import Cur8or.ClientMain

/-! One file over HTTP: which file of the interface root a target names, how the type of a file
follows from its name, and what the response says when it cannot be had. -/
namespace FileExchange

open CxxLibrary PosixPath UtilitiesAdaptors PathResolver HttpResponses MessageProcessing ClientMain

def dotByte : Byte := '.'.toUInt8

/-- A listed suffix counts when something stands before it; everything else is one type. -/
inductive Typed (path : Path) : Bytes → Prop
  | listed {suffix type stem : Bytes} : (suffix, type) ∈ extensionMapping → suffix ≠ [] →
      stem ≠ [] → filename path = stem ++ suffix → Typed path type
  | unlisted : (∀ suffix type stem, (suffix, type) ∈ extensionMapping → suffix ≠ [] →
      stem ≠ [] → filename path ≠ stem ++ suffix) → Typed path (text "application/text")

theorem splitOn_getLast {c : Byte} {l : Bytes} (h : c ∈ l) :
    ∃ stem, l = stem ++ c :: (l.splitOn c).getLastD [] := by
  induction l using cut_induction (c := c) with
  | last l hn => exact absurd h hn
  | cut l hm ih =>
    obtain ⟨hl, _⟩ := cut_of_mem hm
    obtain ⟨next, rest, hsplit⟩ := List.exists_cons_of_ne_nil
      (List.splitOn_ne_nil c (cutAfter c l))
    have hlast : (l.splitOn c).getLastD [] = ((cutAfter c l).splitOn c).getLastD [] := by
      rw [splitOn_of_mem hm, hsplit]
      rfl
    by_cases hc : c ∈ cutAfter c l
    · obtain ⟨stem, hstem⟩ := ih hc
      refine ⟨cutBefore c l ++ c :: stem, ?_⟩
      rw [hlast, List.append_assoc, List.cons_append, ← hstem]
      exact hl
    · refine ⟨cutBefore c l, ?_⟩
      rw [hlast, List.splitOn_eq_singleton hc]
      exact hl

theorem extension_eq_iff {path : Path} {suffix : Bytes} (hne : suffix ≠ [])
    (hdot : dotByte ∉ suffix) :
    extension path = dotByte :: suffix ↔
      ∃ stem, stem ≠ [] ∧ filename path = stem ++ dotByte :: suffix := by
  unfold extension
  generalize filename path = name
  constructor
  · intro h
    dsimp only at h
    split at h
    · cases h
    · next hname =>
      obtain ⟨_, hmem⟩ := not_or.mp hname
      have hin : dotByte ∈ name := List.mem_of_mem_tail (not_not.mp hmem)
      obtain ⟨stem, hstem⟩ := splitOn_getLast hin
      obtain ⟨_, hlast⟩ := List.cons.inj h
      change (name.splitOn dotByte).getLastD [] = suffix at hlast
      rw [hlast] at hstem
      refine ⟨stem, ?_, hstem⟩
      rintro rfl
      rw [hstem] at hmem
      exact hmem hdot
  · rintro ⟨stem, hstem, rfl⟩
    have htail : dotByte ∈ (stem ++ dotByte :: suffix).tail := by
      obtain ⟨c, stem, rfl⟩ := List.exists_cons_of_ne_nil hstem
      simp
    have hdots : stem ++ dotByte :: suffix ≠ dotDot := by
      intro he
      have hlen := congrArg List.length he
      have hs := List.length_pos_iff.mpr hstem
      have hx := List.length_pos_iff.mpr hne
      simp only [List.length_append, List.length_cons] at hlen
      change _ = 2 at hlen
      omega
    have hlast : ((stem ++ dotByte :: suffix).splitOn dotByte).getLastD [] = suffix := by
      rw [List.splitOn_append_cons_self, List.splitOn_eq_singleton hdot]
      simp
    exact (if_neg (not_or.mpr ⟨hdots, not_not_intro htail⟩)).trans
      (congrArg (dotByte :: ·) hlast)

theorem mapping_suffix : ∀ e ∈ extensionMapping, e.1 ≠ [] →
    e.1.head? = some dotByte ∧ e.1.tail ≠ [] ∧ dotByte ∉ e.1.tail := by
  decide

theorem mapping_lookup : ∀ e ∈ extensionMapping, extensionMapping.lookup e.1 = some e.2 := by
  decide

theorem extension_suffix_iff {path : Path} {suffix type : Bytes}
    (hmem : (suffix, type) ∈ extensionMapping) (hne : suffix ≠ []) :
    extension path = suffix ↔ ∃ stem, stem ≠ [] ∧ filename path = stem ++ suffix := by
  obtain ⟨hhead, htail, hdot⟩ := mapping_suffix _ hmem hne
  obtain ⟨rest, rfl⟩ : ∃ rest, suffix = dotByte :: rest := by
    cases suffix with
    | nil => exact absurd rfl hne
    | cons c rest => exact ⟨rest, congrArg (· :: rest) (Option.some.inj hhead)⟩
  exact extension_eq_iff htail hdot

theorem fileMimeType_listed {path : Path} {suffix type : Bytes}
    (hmem : (suffix, type) ∈ extensionMapping) (h : extension path = suffix) :
    fileMimeType path = type := by
  rw [fileMimeType, h, mapping_lookup _ hmem]
  rfl

theorem typed_fileMimeType (path : Path) : Typed path (fileMimeType path) := by
  by_cases h : ∃ e ∈ extensionMapping, e.1 ≠ [] ∧ extension path = e.1
  · obtain ⟨⟨suffix, type⟩, hmem, hne, hext⟩ := h
    obtain ⟨stem, hstem, hname⟩ := (extension_suffix_iff hmem hne).mp hext
    rw [fileMimeType_listed hmem hext]
    exact .listed hmem hne hstem hname
  · have htype : fileMimeType path = text "application/text" := by
      rw [fileMimeType]
      cases hl : extensionMapping.lookup (extension path) with
      | none => rfl
      | some type =>
        have hmem : (extension path, type) ∈ extensionMapping := by
          obtain ⟨before, after, happ, _⟩ := List.lookup_eq_some_iff.mp hl
          rw [happ]
          simp
        have hnil : extension path = [] := by
          by_contra hne
          exact h ⟨_, hmem, hne, rfl⟩
        rw [hnil] at hl
        exact Option.some.inj (hl.symm.trans (mapping_lookup ([], _) (by decide)))
    rw [htype]
    refine .unlisted ?_
    intro suffix type stem hmem hne hstem hname
    exact h ⟨_, hmem, hne, (extension_suffix_iff hmem hne).mpr ⟨stem, hstem, hname⟩⟩

/-- No name has two types. -/
theorem typed_iff {path : Path} {type : Bytes} : Typed path type ↔ fileMimeType path = type := by
  constructor
  · intro h
    cases h with
    | listed hmem hne hstem hname =>
      exact fileMimeType_listed hmem ((extension_suffix_iff hmem hne).mpr ⟨_, hstem, hname⟩)
    | unlisted hall =>
      generalize htype : fileMimeType path = type
      have ht := typed_fileMimeType path
      rw [htype] at ht
      cases ht with
      | listed hmem hne hstem hname => exact absurd hname (hall _ _ _ hmem hne hstem)
      | unlisted _ => rfl
  · rintro rfl
    exact typed_fileMimeType path

/-- What a client is told about the file at a path. -/
inductive Served (host : Host) (request : Request) (path : Path) : Response → Prop
  | found {content : Bytes} {r : Response} : host.openFile (cString path) = .opened content →
      r.status = .ok → r.contentLength = content.length → Typed path r.contentType →
      r.body = (if request.method = .head then [] else content) → Served host request path r
  | missing {r : Response} : host.openFile (cString path) = .noSuchFile → r.status = .notFound →
      r.body = request.target.bytes → Served host request path r
  | failed {message : Bytes} {r : Response} : host.openFile (cString path) = .failed message →
      r.status = .internalServerError → r.body = message → Served host request path r

theorem fileResponse_served (host : Host) (request : Request) (path : Path) :
    Served host request path (fileResponse host request path) := by
  have htyped := typed_fileMimeType path
  unfold fileResponse
  cases h : host.openFile (cString path) with
  | opened content => exact .found h rfl rfl htyped rfl
  | noSuchFile => exact .missing h rfl rfl
  | failed message => exact .failed h rfl rfl

/-- A target that names the file `rest` of the interface; its first segment may carry params. -/
structure NamesFile (target rest : Bytes) : Prop where
  confined : ¬ dotDot <:+: target
  split : ∃ first, separator ∉ first ∧ cutBefore '?'.toUInt8 first = text "file" ∧
    target = separator :: first ++ separator :: rest

theorem NamesFile.route {target rest : Bytes} (h : NamesFile target rest) :
    target.head? = some separator ∧ routeKey target = text "file" ∧
      separator ∈ target.drop 1 ∧ cutAfter separator (target.drop 1) = rest := by
  obtain ⟨first, hsep, hname, rfl⟩ := h.split
  obtain ⟨hbefore, hafter⟩ := cut_append hsep rest
  refine ⟨rfl, ?_, ?_, hafter⟩
  · change cutBefore '?'.toUInt8 (cutBefore separator (first ++ separator :: rest)) = _
    rw [hbefore, hname]
  · change separator ∈ first ++ separator :: rest
    simp

theorem NamesFile.accepted {target : StringView} {rest : Bytes} (env : Environment)
    (h : NamesFile target.bytes rest)
    (hp : 0 < ParamPathAdaptor.standard.passes target) : Accepted (client env) target := by
  obtain ⟨hhead, hkey, _⟩ := h.route
  refine ⟨hhead, h.confined, hp, ?_⟩
  rw [hkey, UnorderedMap.contains, client_find, if_neg (by decide), if_pos rfl]
  rfl

def entry (path : Path) (directory : Bool) : Path :=
  if directory then append path (text "index.html") else path

/-- A file of the interface is served under its own name and type, with its bytes for a GET and
its length for a HEAD; a status query that fails takes the program down. -/
theorem file_exchange (env : Environment) (host : Host) (residue : Residue) {request : Request}
    {rest : Bytes} (h : NamesFile request.target.bytes rest)
    (hp : 0 < ParamPathAdaptor.standard.passes request.target)
    (hm : handledVerb request.method = true) :
    let path := interfaceRoot ++ separator :: rest
    let handled := process host residue (client env) request
    (∀ directory, env.isDirectory path = .ok directory → ∃ r, handled.responses = [r] ∧
      handled.ended = .returned ∧ r.Carries request ∧
      Served host request (entry path directory) r) ∧
    (∀ f, env.isDirectory path = .error f → handled.responses = [] ∧
      handled.ended = .terminated .filesystemError) := by
  intro path handled
  obtain ⟨_, hkey, hmem, hrest⟩ := h.route
  obtain ⟨program, hfind, hprocess⟩ := process_dispatched host residue request
    (h.accepted env hp) hm
  rw [hkey, client_find, if_neg (by decide), if_pos rfl] at hfind
  obtain rfl := Option.some.inj hfind
  have hpath : interfaceRoot ++ request.target.bytes.drop (request.target.find separator 1) =
      path := by
    rw [rest_eq_cons hmem, hrest]
  have hcases := fileHandler_cases env request.target (queryData request)
  rw [hpath] at hcases
  dsimp only at hcases
  rcases hcases with ⟨hno, _⟩ | ⟨_, f, hdir, hrun⟩ | ⟨_, directory, hdir, hrun⟩
  · exact absurd hmem hno
  · have hhandled : handled = ⟨[], some ⟨[], .error f⟩, completion (.error f)⟩ := by
      change process host residue (client env) request = _
      rw [hprocess]
      simp only [QueryProgram.outcome, hrun, ResponseFinalizer.answer]
    refine ⟨fun directory hok => absurd (hdir.symm.trans hok) (by simp), ?_⟩
    intro g _
    obtain rfl := env.isDirectory_error hdir
    rw [hhandled]
    exact ⟨rfl, rfl⟩
  · have hhandled : handled = ⟨[fileResponse host request (entry path directory)],
        some ⟨[.file (entry path directory)], .ok ()⟩, .returned⟩ := by
      change process host residue (client env) request = _
      rw [hprocess]
      simp only [QueryProgram.outcome, hrun, ResponseFinalizer.answer]
      rfl
    refine ⟨?_, fun f herror => absurd (hdir.symm.trans herror) (by simp)⟩
    intro d hok
    obtain rfl := Except.ok.inj (hdir.symm.trans hok)
    rw [hhandled]
    exact ⟨_, rfl, rfl, fileResponse_carries .., fileResponse_served ..⟩

def iconRequest : Request := ⟨.get, .ofText "/file?v=2/img/icon.svg", 11, true, .empty⟩

theorem file_exchange_icon :
    ∃ r, (process emptyHost id (client shortNames) iconRequest).responses = [r] ∧
      Served emptyHost iconRequest (text "./root/img/icon.svg") r := by
  have hnames : NamesFile iconRequest.target.bytes (text "img/icon.svg") :=
    ⟨by decide +kernel, text "file?v=2", by decide, by decide +kernel, by decide +kernel⟩
  obtain ⟨r, hr, _, _, hserved⟩ := (file_exchange shortNames emptyHost id hnames
    (by decide +kernel) rfl).1 false (by decide +kernel)
  exact ⟨r, hr, hserved⟩

end FileExchange
