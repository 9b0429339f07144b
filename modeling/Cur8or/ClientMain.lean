import Cur8or.MessageProcessing
import Cur8or.SqliteJson

/-! The three functors the client registers, over whatever the filesystem, SQLite and the
libraries answer: which files they name, and when they answer at all. -/
namespace ClientMain

open CxxLibrary PosixPath UtilitiesAdaptors PathResolver HttpResponses MessageProcessing
open SqliteRanges SqliteJson

structure Environment where
  /-- Without an `error_code`, so a failing status query throws. -/
  isDirectory : Path → Except Fault Bool
  isDirectory_error : ∀ {p f}, isDirectory p = .error f → f = .filesystemError
  lookup : MultimapFind Bytes Bytes
  prepare : Bytes → ResultCode × Stmt
  errstr : ResultCode → Bytes
  serialize : Json → Bytes

def interfaceRoot : Path := text "./root"

def rootHandler (interfaceRoot : Path) (_target _data : StringView) : Path × Run :=
  let interfaceRoot := append interfaceRoot (text "query.html")
  (interfaceRoot, ⟨[.file interfaceRoot], .ok ()⟩)

def fileHandler (env : Environment) (interfaceRoot : Path) (target _data : StringView) :
    Path × Run :=
  let pos := target.find separator 1
  if pos = npos then (interfaceRoot, ⟨[.error (text "No file path")], .ok ()⟩)
  else match target.substr pos npos with
    | .error f => (interfaceRoot, ⟨[], .error f⟩)
    | .ok rest =>
      let interfaceRoot := concat interfaceRoot rest.bytes
      match env.isDirectory interfaceRoot with
      | .error f => (interfaceRoot, ⟨[], .error f⟩)
      | .ok directory =>
        let interfaceRoot :=
          if directory then append interfaceRoot (text "index.html") else interfaceRoot
        (interfaceRoot, ⟨[.file interfaceRoot], .ok ()⟩)

/-- `postValues.find("sql")->second` -/
def querySql (lookup : MultimapFind Bytes Bytes) (data : StringView) : Except Fault Bytes :=
  match KeyValueAdaptor.standard.call data with
  | .error f => .error f
  | .ok postValues =>
    match lookup.find postValues (text "sql") with
    | none => .error .pastTheEnd
    | some entry => .ok entry.2

def prepareStatement (env : Environment) (sqlLine : Bytes) : Except SqliteError Stmt :=
  let (errorCode, statement) := env.prepare sqlLine
  if errorCode = sqliteOk then .ok statement else .error ⟨errorCode, env.errstr errorCode⟩

/-- Preparation, evaluation and, when both succeed, conversion of the table, if that ends. -/
def runSql (env : Environment) (sql : Bytes) : Option (Except SqliteError Json) :=
  match prepareStatement env sql with
  | .error e => some (.error e)
  | .ok statement => (evaluateJson env.errstr statement).map Prod.fst

def failureMessage (e : SqliteError) : Bytes :=
  text "SQL failure, code: " ++ text (toString e.errorCode.toInt) ++ text " - " ++ e.errorMsg ++
    text "\n"

def queryHandler (env : Environment) (captured : Path) (_target data : StringView) : Path × Run :=
  match querySql env.lookup data with
  | .error f => (captured, ⟨[], .error f⟩)
  | .ok sql =>
    match runSql env sql with
    | none => (captured, ⟨[], .error .endless⟩)
    | some (.error e) => (captured, ⟨[.error (failureMessage e)], .ok ()⟩)
    | some (.ok json) => (captured, ⟨[.data (env.serialize json)], .ok ()⟩)

/-- The resolver `main` builds; the last functor captures no path. -/
def client (env : Environment) : VirtualPathMap Path :=
  registerCallback
    (registerCallback (registerCallback .empty [] ⟨interfaceRoot, rootHandler⟩)
      (text "file") ⟨interfaceRoot, fileHandler env⟩)
    (text "query") ⟨[], queryHandler env⟩

theorem client_find (env : Environment) (key : Bytes) : (client env).find? key =
    if key = text "query" then some ⟨[], queryHandler env⟩
    else if key = text "file" then some ⟨interfaceRoot, fileHandler env⟩
    else if key = [] then some ⟨interfaceRoot, rootHandler⟩
    else none := by
  have hfile : text "query" ≠ text "file" := by decide
  have hroot : text "query" ≠ [] := by decide
  have hroot' : text "file" ≠ [] := by decide
  simp only [client, registerCallback, UnorderedMap.find?_emplace, hfile, hroot, hroot', if_false]
  rfl

variable {env : Environment} {host : Host} {residue : Residue} {request : Request}

/-- The path stays below the interface root, by its text and by its normal form. -/
structure Confined (path : Path) : Prop where
  starts : interfaceRoot ++ [separator] <+: path
  climbless : dotDot ∉ components path
  inside : Inside interfaceRoot path

theorem confined_of_join (rest : Bytes) {path : Path}
    (hpath : path = interfaceRoot ++ separator :: rest) (h : dotDot ∉ components path) :
    Confined path := by
  subst hpath
  refine ⟨⟨rest, ?_⟩, h, inside_of_no_dotDot (by decide) h⟩
  rw [List.append_assoc, List.singleton_append]

theorem rootHandler_confined (target data : StringView) {path : Path}
    (h : .file path ∈ (rootHandler interfaceRoot target data).2.returns) : Confined path := by
  obtain rfl : path = append interfaceRoot (text "query.html") := by
    simpa [rootHandler] using h
  exact confined_of_join (text "query.html") (by decide) (by decide)

theorem rest_eq_cons {target : StringView} (h : separator ∈ target.bytes.drop 1) :
    target.bytes.drop (target.find separator 1) =
      separator :: cutAfter separator (target.bytes.drop 1) := by
  have hlt := List.idxOf_lt_length_of_mem h
  rw [StringView.find_of_mem h, ← List.drop_drop, List.drop_eq_getElem_cons hlt,
    List.getElem_idxOf]
  rfl

theorem substr_rest {target : StringView} (h : separator ∈ target.bytes.drop 1) :
    ∃ rest, target.substr (target.find separator 1) npos = .ok rest ∧
      rest.bytes = target.bytes.drop (target.find separator 1) := by
  have hle : target.find separator 1 ≤ target.size := Nat.le_of_lt (StringView.find_lt_size h)
  refine ⟨_, StringView.substr_of_le hle npos, ?_⟩
  rw [StringView.slice_bytes]
  apply List.take_of_length_le
  exact Nat.le_of_lt (Nat.lt_of_le_of_lt (List.drop_suffix _ _).length_le target.size_lt)

theorem fileHandler_cases (env : Environment) (target data : StringView) :
    let run := (fileHandler env interfaceRoot target data).2
    let path := interfaceRoot ++ target.bytes.drop (target.find separator 1)
    (separator ∉ target.bytes.drop 1 ∧ run = ⟨[.error (text "No file path")], .ok ()⟩) ∨
    (separator ∈ target.bytes.drop 1 ∧ ∃ f, env.isDirectory path = .error f ∧
      run = ⟨[], .error f⟩) ∨
    (separator ∈ target.bytes.drop 1 ∧ ∃ directory, env.isDirectory path = .ok directory ∧
      run = ⟨[.file (if directory then append path (text "index.html") else path)], .ok ()⟩) := by
  intro run path
  by_cases hmem : separator ∈ target.bytes.drop 1
  · have hpos : target.find separator 1 ≠ npos := fun h => StringView.find_eq_npos_iff.mp h hmem
    obtain ⟨rest, hrest, hbytes⟩ := substr_rest hmem
    have hpath : concat interfaceRoot rest.bytes = path := by rw [concat, hbytes]
    cases hdir : env.isDirectory path with
    | error f =>
      refine Or.inr (Or.inl ⟨hmem, f, rfl, ?_⟩)
      simp only [run, fileHandler, if_neg hpos, hrest, hpath, hdir]
    | ok directory =>
      refine Or.inr (Or.inr ⟨hmem, directory, rfl, ?_⟩)
      simp only [run, fileHandler, if_neg hpos, hrest, hpath, hdir]
  · refine Or.inl ⟨hmem, ?_⟩
    simp only [run, fileHandler, if_pos (StringView.find_of_notMem hmem)]

theorem confined_rest {target t : Bytes} (hdots : ¬ dotDot <:+: target)
    (hsuffix : separator :: t <:+ target) (directory : Bool) :
    Confined (if directory then append (interfaceRoot ++ separator :: t) (text "index.html")
      else interfaceRoot ++ separator :: t) := by
  have hclimb : dotDot ∉ components (interfaceRoot ++ separator :: t) := by
    rw [components_join, List.mem_append]
    rintro (hroot | hrest)
    · exact absurd hroot (by decide)
    · have hinfix : t <:+: target := (List.suffix_cons _ _).isInfix.trans hsuffix.isInfix
      exact dotDot_notMem_components (fun hd => hdots (hd.trans hinfix)) hrest
  cases directory with
  | false => exact confined_of_join t rfl hclimb
  | true =>
    have hne : interfaceRoot ++ separator :: t ≠ [] := by simp
    have habs : isAbsolute (text "index.html") = false := by decide
    obtain ⟨u, hu⟩ := prefix_append hne habs
    rw [if_pos rfl]
    apply confined_of_join (t ++ u)
    · rw [← hu, List.append_assoc, List.cons_append]
    · intro hmem
      rcases mem_components_append hne habs hmem with hp | hq
      · exact hclimb hp
      · exact absurd hq (by decide)

theorem fileHandler_confined {target : StringView} (data : StringView)
    (hdots : ¬ dotDot <:+: target.bytes) {path : Path}
    (h : .file path ∈ (fileHandler env interfaceRoot target data).2.returns) : Confined path := by
  rcases fileHandler_cases env target data with ⟨_, hrun⟩ | ⟨_, f, _, hrun⟩ | ⟨hmem, d, _, hrun⟩
  · rw [hrun] at h
    simp at h
  · rw [hrun] at h
    cases h
  · rw [hrun] at h
    obtain rfl := Return.file.inj (List.mem_singleton.mp h)
    have ht := rest_eq_cons hmem
    rw [ht]
    exact confined_rest hdots (ht ▸ List.drop_suffix _ _) d

theorem newQuery_program {target : StringView} {query : Query Path}
    (hs : supportedOperation (client env) target = .ok true)
    (hq : newQuery (client env) target = .ok query) :
    query.target = target ∧ (client env).find? (routeKey target.bytes) = some query.program := by
  obtain ⟨program, hfind, hnew⟩ := newQuery_of_accepted (supportedOperation_iff.mp hs)
  obtain rfl := Except.ok.inj (hq.symm.trans hnew)
  exact ⟨rfl, hfind⟩

theorem queryHandler_returns_no_file (captured : Path) (target data : StringView) (path : Path) :
    .file path ∉ (queryHandler env captured target data).2.returns := by
  simp only [queryHandler]
  cases querySql env.lookup data with
  | error f => simp
  | ok sql =>
    match hsql : runSql env sql with
    | none => simp [hsql]
    | some (.error e) => simp [hsql]
    | some (.ok json) => simp [hsql]

/-- Whatever an accepted target makes a functor hand out lies below the interface root. -/
theorem files_confined (env : Environment) {target : StringView} {query : Query Path}
    (hs : supportedOperation (client env) target = .ok true)
    (hq : newQuery (client env) target = .ok query) (data : StringView) {path : Path}
    (hp : .file path ∈ (query.setData data).run.2.returns) : Confined path := by
  have ha := supportedOperation_iff.mp hs
  obtain ⟨htarget, hfind⟩ := newQuery_program hs hq
  rw [Query.run_snd, Query.setData, QueryProgram.outcome, htarget] at hp
  rw [client_find] at hfind
  split at hfind
  · obtain hprogram := Option.some.inj hfind
    rw [← hprogram] at hp
    exact absurd hp (queryHandler_returns_no_file [] target data path)
  · split at hfind
    · obtain hprogram := Option.some.inj hfind
      rw [← hprogram] at hp
      exact fileHandler_confined data ha.confined hp
    · split at hfind
      · obtain hprogram := Option.some.inj hfind
        rw [← hprogram] at hp
        exact rootHandler_confined target data hp
      · cases hfind

/-- A filesystem without directories whose names end at 255 bytes, and a database that answers
every text with one row. -/
def shortNames : Environment where
  isDirectory p :=
    if ∀ name ∈ components p, name.length ≤ 255 then .ok false else .error .filesystemError
  isDirectory_error := by
    intro p f h
    split at h
    · cases h
    · exact (Except.error.inj h).symm
  lookup := .first
  prepare _ := (sqliteOk, some (standing [.integer 1]))
  errstr _ := []
  serialize _ := text "json"

theorem files_confined_passwd : Confined (text "./root//etc/passwd?x") := by
  have hs : supportedOperation (client shortNames) (.ofText "/file//etc/passwd?x") = .ok true := by
    decide +kernel
  obtain ⟨program, hfind, hq⟩ := newQuery_of_accepted (supportedOperation_iff.mp hs)
  refine files_confined shortNames hs hq .empty ?_
  have hkey : routeKey (StringView.ofText "/file//etc/passwd?x").bytes = text "file" := by
    decide +kernel
  rw [hkey, client_find, if_neg (by decide), if_pos rfl] at hfind
  obtain rfl := Option.some.inj hfind
  decide +kernel

def EndsWithFile (run : Run) : Prop :=
  completion run.exit = .returned ∧
    ((∃ message, run.returns = [.error message]) ∨ ∃ path, run.returns = [.file path])

theorem file_query_iff (env : Environment) {target : StringView} {query : Query Path}
    (hs : supportedOperation (client env) target = .ok true)
    (hk : routeKey target.bytes = text "file")
    (hq : newQuery (client env) target = .ok query) (data : StringView) :
    EndsWithFile (query.setData data).run.2 ↔
      separator ∉ target.bytes.drop 1 ∨ ∃ directory,
        env.isDirectory (interfaceRoot ++ target.bytes.drop (target.find separator 1)) =
          .ok directory := by
  obtain ⟨htarget, hfind⟩ := newQuery_program hs hq
  rw [hk, client_find, if_neg (by decide), if_pos rfl] at hfind
  rw [Query.run_snd, Query.setData, QueryProgram.outcome, htarget, ← Option.some.inj hfind]
  change EndsWithFile (fileHandler env interfaceRoot target data).2 ↔ _
  rcases fileHandler_cases env target data with
    ⟨hmem, hrun⟩ | ⟨hmem, f, hdir, hrun⟩ | ⟨hmem, directory, hdir, hrun⟩
  · rw [hrun]
    exact iff_of_true ⟨rfl, Or.inl ⟨_, rfl⟩⟩ (Or.inl hmem)
  · rw [hrun, hdir]
    apply iff_of_false
    · rintro ⟨_, ⟨_, h⟩ | ⟨_, h⟩⟩
      · cases h
      · cases h
    · rintro (h | ⟨_, h⟩)
      · exact h hmem
      · cases h
  · rw [hrun, hdir]
    exact iff_of_true ⟨rfl, Or.inr ⟨_, rfl⟩⟩ (Or.inr ⟨directory, rfl⟩)

theorem file_query_iff_icon : EndsWithFile ⟨[.file (text "./root/icon.svg")], .ok ()⟩ := by
  have hs : supportedOperation (client shortNames) (.ofText "/file/icon.svg") = .ok true := by
    decide +kernel
  obtain ⟨program, hfind, hq⟩ := newQuery_of_accepted (supportedOperation_iff.mp hs)
  have hk : routeKey (StringView.ofText "/file/icon.svg").bytes = text "file" := by decide +kernel
  have hends := (file_query_iff shortNames hs hk hq .empty).mpr
    (.inr ⟨false, by decide +kernel⟩)
  rw [hk, client_find, if_neg (by decide), if_pos rfl] at hfind
  obtain rfl := Option.some.inj hfind
  exact hends

def longName : StringView :=
  ⟨text "/file/" ++ List.replicate 256 'a'.toUInt8, by
    rw [List.length_append, List.length_replicate]
    decide⟩

/-- The status query throws, and a `noexcept` function above it ends the server. -/
theorem long_name_terminates :
    supportedOperation (client shortNames) longName = .ok true ∧
    routeKey longName.bytes = text "file" ∧
    (process emptyHost id (client shortNames) ⟨.get, longName, 11, true, .empty⟩).responses = [] ∧
    (process emptyHost id (client shortNames) ⟨.get, longName, 11, true, .empty⟩).ended =
      .terminated .filesystemError := by
  decide +kernel

end ClientMain
