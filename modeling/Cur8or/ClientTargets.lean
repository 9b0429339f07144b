import Cur8or.ClientMain

/-! The file functor cuts its path out of the raw target, while routing goes by the names of the
parsed segments. When the two read a target alike. -/
namespace ClientTargets

open CxxLibrary PosixPath UtilitiesAdaptors PathResolver MessageProcessing ClientMain

/-- What the functor behind an accepted target does when it runs. -/
def targetRun (env : Environment) (target data : StringView) : Except Fault Run :=
  (newQuery (client env) target).map fun query => (query.setData data).run.2

def ReturnsError (target : StringView) : Prop :=
  ∃ message, ∀ env data, targetRun env target data = .ok ⟨[.error message], .ok ()⟩

def answerAt (env : Environment) (path : Path) : Run :=
  match env.isDirectory path with
  | .error f => ⟨[], .error f⟩
  | .ok directory => ⟨[.file (if directory then append path (text "index.html") else path)], .ok ()⟩

/-- Over every filesystem, the outcome hangs on the status of this one path. -/
def Tests (target : StringView) (path : Path) : Prop :=
  ∀ env data, targetRun env target data = .ok (answerAt env path)

def slashJoin (names : List Bytes) : Path := names.flatMap (separator :: ·)

structure ReadAlike (target : StringView) (segments : ListType) : Prop where
  refused : ReturnsError target ↔ segments.length = 1
  tested : segments.length ≠ 1 →
    Tests target (interfaceRoot ++ slashJoin (segments.tail.map Prod.fst))

/-- Where the readings agree, the file handed out depends on the names alone. -/
theorem ReadAlike.same_run {target twin : StringView} {segments others : ListType}
    (h : ReadAlike target segments) (k : ReadAlike twin others)
    (hnames : segments.map Prod.fst = others.map Prod.fst) (hne : segments.length ≠ 1)
    (env : Environment) (data : StringView) :
    targetRun env target data = targetRun env twin data := by
  have hlen : segments.length = others.length := by
    simpa only [List.length_map] using congrArg List.length hnames
  have htail : segments.tail.map Prod.fst = others.tail.map Prod.fst := by
    rw [List.map_tail, List.map_tail, hnames]
  rw [h.tested hne, k.tested (hlen ▸ hne), htail]

theorem slashJoin_splitOn (l : Bytes) : slashJoin (l.splitOn separator) = separator :: l := by
  induction l using cut_induction (c := separator) with
  | last l h => simp [slashJoin, List.splitOn_eq_singleton h]
  | cut l h ih =>
    obtain ⟨hl, _⟩ := cut_of_mem h
    rw [splitOn_of_mem h, slashJoin, List.flatMap_cons]
    change _ ++ slashJoin _ = _
    rw [ih, List.cons_append, ← hl]

theorem count_slashJoin {names : List Bytes} (h : ∀ name ∈ names, separator ∉ name) :
    (slashJoin names).count separator = names.length := by
  induction names with
  | nil => rfl
  | cons name names ih =>
    have hname := h name List.mem_cons_self
    have hrest := ih fun n hn => h n (List.mem_cons_of_mem _ hn)
    rw [slashJoin, List.flatMap_cons, List.count_append, List.count_cons_self,
      List.count_eq_zero_of_not_mem hname]
    change _ + (slashJoin names).count separator = _
    rw [hrest, List.length_cons, Nat.add_comm]

theorem mem_slashJoin {names : List Bytes} {c : Byte} (hc : c ≠ separator) :
    c ∈ slashJoin names ↔ ∃ name ∈ names, c ∈ name := by
  simp [slashJoin, hc]

theorem slashJoin_names (pieces : List Bytes) :
    slashJoin pieces = slashJoin (pieces.map (cutBefore '?'.toUInt8)) ↔
      '?'.toUInt8 ∉ slashJoin pieces := by
  have hne : '?'.toUInt8 ≠ separator := by decide
  constructor
  · intro h hm
    rw [h, mem_slashJoin hne] at hm
    obtain ⟨name, hn, hm⟩ := hm
    obtain ⟨piece, _, rfl⟩ := List.mem_map.mp hn
    exact notMem_cutBefore _ _ hm
  · intro h
    have hcut : ∀ piece ∈ pieces, cutBefore '?'.toUInt8 piece = piece := by
      intro piece hp
      apply cutBefore_of_notMem
      exact fun hm => h ((mem_slashJoin hne).mpr ⟨piece, hp, hm⟩)
    rw [List.map_congr_left hcut, List.map_id']

theorem accepted_any {env : Environment} {target : StringView} (h : Accepted (client env) target)
    (other : Environment) : Accepted (client other) target where
  slash := h.slash
  confined := h.confined
  counted := h.counted
  registered := by
    have hr := h.registered
    unfold UnorderedMap.contains at hr ⊢
    rw [client_find] at hr ⊢
    split_ifs at hr ⊢ <;> first | rfl | exact hr

theorem targetRun_file {env : Environment} {target : StringView}
    (h : Accepted (client env) target) (hk : routeKey target.bytes = text "file")
    (other : Environment) (data : StringView) :
    targetRun other target data = .ok (fileHandler other interfaceRoot target data).2 := by
  obtain ⟨program, hfind, hnew⟩ := newQuery_of_accepted (accepted_any h other)
  rw [hk, client_find, if_neg (by decide), if_pos rfl] at hfind
  obtain rfl := Option.some.inj hfind
  rw [targetRun, hnew]
  rfl

theorem file_tests {env : Environment} {target : StringView} (h : Accepted (client env) target)
    (hk : routeKey target.bytes = text "file") (hm : separator ∈ target.bytes.drop 1) :
    Tests target (interfaceRoot ++ target.bytes.drop (target.find separator 1)) := by
  intro other data
  rw [targetRun_file h hk]
  rcases fileHandler_cases other target data with ⟨hn, _⟩ | ⟨_, f, hdir, hrun⟩ | ⟨_, d, hdir, hrun⟩
  · exact absurd hm hn
  · rw [hrun, answerAt, hdir]
  · rw [hrun, answerAt, hdir]

theorem file_returns_error {env : Environment} {target : StringView}
    (h : Accepted (client env) target) (hk : routeKey target.bytes = text "file")
    (hm : separator ∉ target.bytes.drop 1) : ReturnsError target := by
  refine ⟨text "No file path", ?_⟩
  intro other data
  rw [targetRun_file h hk]
  rcases fileHandler_cases other target data with ⟨_, hrun⟩ | ⟨hn, _⟩ | ⟨hn, _⟩
  · rw [hrun]
  · exact absurd hn hm
  · exact absurd hn hm

theorem answerAt_ne_error (env : Environment) (path : Path) (message : Bytes) :
    answerAt env path ≠ ⟨[.error message], .ok ()⟩ := by
  unfold answerAt
  cases env.isDirectory path <;> simp

theorem Tests.not_returnsError {target : StringView} {path : Path} (h : Tests target path) :
    ¬ ReturnsError target := by
  rintro ⟨message, he⟩
  have hrun := (h shortNames .empty).symm.trans (he shortNames .empty)
  exact answerAt_ne_error _ _ _ (Except.ok.inj hrun)

def failingAt (path : Path) : Environment :=
  { shortNames with
    isDirectory := fun p => if p = path then .error .filesystemError else .ok false
    isDirectory_error := by
      intro p f h
      split at h
      · exact (Except.error.inj h).symm
      · cases h }

theorem Tests.unique {target : StringView} {p q : Path} (hp : Tests target p)
    (hq : Tests target q) : p = q := by
  by_contra hne
  have hrun := (hp (failingAt p) .empty).symm.trans (hq (failingAt p) .empty)
  have hfail : answerAt (failingAt p) p = ⟨[], .error .filesystemError⟩ := by
    simp [answerAt, failingAt]
  have hother : answerAt (failingAt p) q = ⟨[.file q], .ok ()⟩ := by
    have hq : ¬ q = p := fun e => hne e.symm
    simp [answerAt, failingAt, hq]
  rw [hfail, hother] at hrun
  simp at hrun

theorem drop_find_eq {target : StringView} {rest : Bytes}
    (h : target.bytes = separator :: rest) :
    target.bytes.drop (target.find separator 1) = slashJoin (rest.splitOn separator).tail := by
  have hdrop : target.bytes.drop 1 = rest := by rw [h, List.drop_one, List.tail_cons]
  by_cases hm : separator ∈ target.bytes.drop 1
  · rw [rest_eq_cons hm, hdrop, splitOn_of_mem (hdrop ▸ hm), List.tail_cons, slashJoin_splitOn]
  · rw [StringView.find_of_notMem hm, List.splitOn_eq_singleton (hdrop ▸ hm)]
    exact List.drop_eq_nil_of_le (Nat.le_of_lt target.size_lt)

theorem routeKey_eq_name {target : StringView} {segments : ListType} {name : Bytes}
    (hs : target.bytes.head? = some separator)
    (hp : ParamPathAdaptor.standard.call target = .ok segments)
    (hk : segments.head?.map Prod.fst = some name) : routeKey target.bytes = name := by
  have hf := firstName_eq hs
  rw [firstName, hp, ok_bind] at hf
  cases segments with
  | nil => cases hk
  | cons first rest =>
    obtain rfl := Option.some.inj hk
    split at hf
    · exact (Except.ok.inj hf).symm
    · cases hf

structure Parsed (target : StringView) (segments : ListType) (rest : Bytes) : Prop where
  bytes : target.bytes = separator :: rest
  count : (rest.splitOn separator).length = target.count separator
  positive : 0 < ParamPathAdaptor.standard.passes target
  length : segments.length = ParamPathAdaptor.standard.passes target
  names : segments.map Prod.fst = ((rest.splitOn separator).take
    (ParamPathAdaptor.standard.passes target)).map (cutBefore '?'.toUInt8)

theorem parsed_of_accepted {env : Environment} {target : StringView} {segments : ListType}
    (ha : Accepted (client env) target)
    (hp : ParamPathAdaptor.standard.call target = .ok segments) :
    ∃ rest, Parsed target segments rest := by
  obtain ⟨rest, hrest, hpieces⟩ := pieces_of_slash ha.slash
  have hcount : (rest.splitOn separator).length = target.count separator := by
    rw [← hpieces, ParamPathAdaptor.length_pieces]
    rfl
  rw [ParamPathAdaptor.call_eq, hpieces] at hp
  obtain rfl := Except.ok.inj hp
  refine ⟨rest, hrest, hcount, ha.counted, ?_, ?_⟩
  · rw [List.length_map, List.length_take, hcount]
    exact min_eq_left (ParamPathAdaptor.standard.passes_le target)
  · rw [List.map_map]
    rfl

namespace Parsed

variable {env : Environment} {target : StringView} {segments : ListType} {rest : Bytes}

theorem mem_iff (h : Parsed target segments rest) :
    separator ∈ target.bytes.drop 1 ↔ 1 < target.count separator := by
  rw [← h.count, length_splitOn, h.bytes, List.drop_one, List.tail_cons, ← List.count_pos_iff]
  omega

theorem passes_eq (h : Parsed target segments rest) (hc : target.count separator ≤ intMax) :
    ParamPathAdaptor.standard.passes target = (rest.splitOn separator).length := by
  have hn := narrowInt_of_le hc
  change (narrowInt (target.count separator)).toNat = _
  rw [hn, h.count]
  rfl

theorem tail_names (h : Parsed target segments rest) (hc : target.count separator ≤ intMax) :
    segments.tail.map Prod.fst =
      (rest.splitOn separator).tail.map (cutBefore '?'.toUInt8) := by
  rw [List.map_tail, h.names, h.passes_eq hc, List.take_length, List.map_tail]

theorem tail_notMem (h : Parsed target segments rest) :
    ∀ name ∈ segments.tail.map Prod.fst, separator ∉ name := by
  intro name hn
  rw [List.map_tail, h.names] at hn
  obtain ⟨piece, hp, rfl⟩ := List.mem_map.mp (List.mem_of_mem_tail hn)
  have hpiece := (mem_splitOn (List.mem_of_mem_take hp)).1
  exact fun hm => hpiece ((List.take_prefix _ _).mem hm)

theorem single (h : Parsed target segments rest) (hm : separator ∉ target.bytes.drop 1) :
    segments.length = 1 ∧ target.count separator ≤ intMax ∧
      target.bytes.drop (target.find separator 1) = [] := by
  have hone : target.count separator ≤ 1 := Nat.le_of_not_lt fun hlt => hm (h.mem_iff.mpr hlt)
  have hle := ParamPathAdaptor.standard.passes_le target
  change _ ≤ target.count separator at hle
  have hpos := h.positive
  refine ⟨?_, Nat.le_trans hone (by decide), ?_⟩
  · rw [h.length]
    omega
  · rw [StringView.find_of_notMem hm]
    exact List.drop_eq_nil_of_le (Nat.le_of_lt target.size_lt)

/-- As many slashes in both readings means that the counter did not wrap. -/
theorem count_le_of_eq (h : Parsed target segments rest)
    (heq : slashJoin (rest.splitOn separator).tail = slashJoin (segments.tail.map Prod.fst)) :
    target.count separator ≤ intMax := by
  have hslashes := congrArg (List.count separator) heq
  rw [count_slashJoin (fun _ hn => (mem_splitOn (List.mem_of_mem_tail hn)).1),
    count_slashJoin h.tail_notMem, List.length_tail, List.length_map, List.length_tail, h.count,
    h.length] at hslashes
  have hpos := h.positive
  have hle := narrowInt_le_intMax (target.count separator)
  have hpasses : ParamPathAdaptor.standard.passes target =
      (narrowInt (target.count separator)).toNat := rfl
  omega

end Parsed

theorem file_reads_iff {env : Environment} {target : StringView} {segments : ListType}
    (hs : supportedOperation (client env) target = .ok true)
    (hp : ParamPathAdaptor.standard.call target = .ok segments)
    (hk : segments.head?.map Prod.fst = some (text "file")) :
    ReadAlike target segments ↔ target.count separator ≤ intMax ∧
      '?'.toUInt8 ∉ target.bytes.drop (target.find separator 1) := by
  have ha := supportedOperation_iff.mp hs
  have hkey := routeKey_eq_name ha.slash hp hk
  obtain ⟨rest, h⟩ := parsed_of_accepted ha hp
  by_cases hm : separator ∈ target.bytes.drop 1
  · have htests := file_tests ha hkey hm
    rw [drop_find_eq h.bytes] at htests ⊢
    constructor
    · intro hread
      have hne : segments.length ≠ 1 := fun e => htests.not_returnsError (hread.refused.mpr e)
      have heq := List.append_cancel_left (htests.unique (hread.tested hne))
      have hc := h.count_le_of_eq heq
      rw [h.tail_names hc] at heq
      exact ⟨hc, (slashJoin_names _).mp heq⟩
    · rintro ⟨hc, hq⟩
      have hmany : segments.length ≠ 1 := by
        rw [h.length, h.passes_eq hc, h.count]
        exact Nat.ne_of_gt (h.mem_iff.mp hm)
      refine ⟨iff_of_false htests.not_returnsError hmany, fun _ => ?_⟩
      rw [h.tail_names hc, ← (slashJoin_names _).mpr hq]
      exact htests
  · obtain ⟨hone, hc, hnil⟩ := h.single hm
    rw [hnil]
    refine iff_of_true ⟨iff_of_true (file_returns_error ha hkey hm) hone, ?_⟩ ⟨hc, by simp⟩
    exact fun hne => absurd hone hne

theorem file_reads_iff_nested :
    ReadAlike (.ofText "/file?v=2/css/page.css")
      [(text "file", text "v=2"), (text "css", []), (text "page.css", [])] := by
  have hs : supportedOperation (client shortNames) (.ofText "/file?v=2/css/page.css") =
      .ok true := by decide +kernel
  exact (file_reads_iff hs (by decide +kernel) (by decide)).mpr (by decide +kernel)

/-- A parameter on the last segment stays in the name of the file. -/
theorem parameter_kept :
    supportedOperation (client shortNames) (.ofText "/file/query.html?x=1") = .ok true ∧
    ParamPathAdaptor.standard.call (.ofText "/file/query.html?x=1") =
      .ok [(text "file", []), (text "query.html", text "x=1")] ∧
    ¬ ReadAlike (.ofText "/file/query.html?x=1")
      [(text "file", []), (text "query.html", text "x=1")] := by
  refine ⟨by decide +kernel, by decide +kernel, ?_⟩
  intro h
  have htested := h.tested (by decide) shortNames .empty
  have hrun : targetRun shortNames (.ofText "/file/query.html?x=1") .empty =
      .ok ⟨[.file (text "./root/query.html?x=1")], .ok ()⟩ := by decide +kernel
  have hanswer : answerAt shortNames (interfaceRoot ++ slashJoin ([text "query.html"])) =
      ⟨[.file (text "./root/query.html")], .ok ()⟩ := by decide +kernel
  have hne := Except.ok.inj (hrun.symm.trans (htested.trans (congrArg Except.ok hanswer)))
  revert hne
  decide +kernel

end ClientTargets
