import Cur8or.AdaptorReference

/-! Writing back what the adaptors have read. Which maps and lists survive the way through a
text, which texts survive the way through a list, and how reading composes. -/
namespace AdaptorRoundTrips

open CxxLibrary UtilitiesAdaptors AdaptorReference

section Pairs

variable {a : KeyValueAdaptor} {pairs : MapType}

def render (a : KeyValueAdaptor) (pairs : MapType) : Bytes :=
  [a.pairSeparator].intercalate (pairs.map (joined a))

/-- Only the last segment may join to a lone separator. -/
structure Renderable (a : KeyValueAdaptor) (pairs : MapType) : Prop where
  keys : ∀ e ∈ pairs, a.keyValueSeparator ∉ e.1 ∧ a.pairSeparator ∉ e.1
  values : ∀ e ∈ pairs, a.pairSeparator ∉ e.2
  inner : ∀ e ∈ pairs.dropLast, e ≠ ([], [])

theorem entryOf_ne_nil {seg : Bytes} (h : kept a seg = true) : a.entryOf seg ≠ ([], []) := by
  obtain ⟨hnil, hkv⟩ : seg ≠ [] ∧ seg ≠ [a.keyValueSeparator] := by simpa [kept] using h
  intro he
  rw [KeyValueAdaptor.entryOf] at he
  split at he
  · next hmem =>
    obtain ⟨hseg, _⟩ := cut_of_mem hmem
    obtain ⟨hkey, hvalue⟩ := Prod.mk.inj he
    rw [hkey, hvalue] at hseg
    exact hkv hseg
  · exact hnil (Prod.mk.inj he).1

theorem entryOf_clean {seg : Bytes} (h : a.pairSeparator ∉ seg) :
    (a.keyValueSeparator ∉ (a.entryOf seg).1 ∧ a.pairSeparator ∉ (a.entryOf seg).1) ∧
      a.pairSeparator ∉ (a.entryOf seg).2 := by
  refine ⟨?_, KeyValueAdaptor.notMem_entryOf_value h⟩
  rw [KeyValueAdaptor.entryOf]
  split
  · next hmem =>
    obtain ⟨_, hn⟩ := cut_of_mem hmem
    exact ⟨hn, fun hp => h ((List.take_prefix _ _).mem hp)⟩
  · next hmem => exact ⟨hmem, h⟩

theorem renderable_of_call {str : StringView} (hc : str.count a.pairSeparator ≤ intMax)
    (h : a.call str = .ok pairs) : Renderable a pairs := by
  have hentries := KeyValueAdaptor.call_eq a str
  rw [h] at hentries
  have hclean : ∀ e ∈ pairs, ∃ seg, a.pairSeparator ∉ seg ∧ e = a.entryOf seg := by
    intro e he
    rw [Except.ok.inj hentries] at he
    obtain ⟨seg, hseg, rfl⟩ := KeyValueAdaptor.segment_of_mem_entries he
    exact ⟨seg, (mem_splitOn (List.mem_of_mem_take hseg)).1, rfl⟩
  have hinner : ∀ e ∈ pairs.dropLast, e ∈ reference a str.bytes := by
    rw [call_of_count_le hc] at h
    intro e he
    rw [← Except.ok.inj h] at he
    split at he
    · rwa [List.dropLast_concat] at he
    · rw [List.append_nil] at he
      exact List.mem_of_mem_dropLast he
  refine ⟨?_, ?_, ?_⟩
  · intro e he
    obtain ⟨seg, hseg, rfl⟩ := hclean e he
    exact (entryOf_clean hseg).1
  · intro e he
    obtain ⟨seg, hseg, rfl⟩ := hclean e he
    exact (entryOf_clean hseg).2
  · intro e he
    obtain ⟨seg, hseg, rfl⟩ := List.mem_map.mp (hinner e he)
    exact entryOf_ne_nil (List.mem_filter.mp hseg).2

theorem joined_eq_separator_iff {e : Bytes × Bytes} :
    joined a e = [a.keyValueSeparator] ↔ e = ([], []) := by
  obtain ⟨key, value⟩ := e
  constructor
  · intro h
    have hlen := congrArg List.length h
    simp only [joined, List.length_append, List.length_cons, List.length_nil] at hlen
    rw [List.length_eq_zero_iff.mp (show key.length = 0 by omega),
      List.length_eq_zero_iff.mp (show value.length = 0 by omega)]
  · rintro h
    obtain ⟨rfl, rfl⟩ := Prod.mk.inj h
    rfl

theorem entries_joined (hkeys : ∀ e ∈ pairs, a.keyValueSeparator ∉ e.1)
    (h : ∀ e ∈ pairs, e ≠ ([], [])) :
    ((pairs.map (joined a)).filter (kept a)).map a.entryOf = pairs := by
  have hall : (pairs.map (joined a)).filter (kept a) = pairs.map (joined a) := by
    rw [List.filter_eq_self]
    intro seg hseg
    obtain ⟨e, he, rfl⟩ := List.mem_map.mp hseg
    exact kept_joined fun hnil => h e he (Prod.ext hnil.1 hnil.2)
  rw [hall, List.map_map]
  calc pairs.map (a.entryOf ∘ joined a)
      = pairs.map id := List.map_congr_left fun e he => KeyValueAdaptor.entryOf_append (hkeys e he)
    _ = pairs := List.map_id pairs

theorem read_segments (h : Renderable a pairs) :
    ((pairs.map (joined a)).filter (kept a)).map a.entryOf ++
      (if (pairs.map (joined a)).getLast? = some [a.keyValueSeparator] then [([], [])] else []) =
        pairs := by
  have hkeys : ∀ e ∈ pairs, a.keyValueSeparator ∉ e.1 := fun e he => (h.keys e he).1
  rcases List.eq_nil_or_concat pairs with rfl | ⟨init, last, rfl⟩
  · rfl
  have hinner := h.inner
  rw [List.concat_eq_append, List.dropLast_concat] at hinner
  rw [List.concat_eq_append] at hkeys ⊢
  have hinit := entries_joined (fun e he => hkeys e (List.mem_append_left _ he)) hinner
  rw [List.map_append, List.map_singleton, List.getLast?_concat, List.filter_append,
    List.map_append, hinit, List.append_assoc]
  by_cases hlast : last = ([], [])
  · have hlone : joined a last = [a.keyValueSeparator] := joined_eq_separator_iff.mpr hlast
    rw [if_pos (congrArg some hlone), hlone, hlast]
    simp [kept]
  · have hlone : some (joined a last) ≠ some [a.keyValueSeparator] := fun he =>
      hlast (joined_eq_separator_iff.mp (Option.some.inj he))
    have hone : (([last].map (joined a)).filter (kept a)).map a.entryOf = [last] :=
      entries_joined (fun e he => hkeys e (List.mem_append_right _ he))
        (fun e he => List.mem_singleton.mp he ▸ hlast)
    rw [if_neg hlone, List.append_nil]
    exact congrArg (init ++ ·) hone

theorem notMem_joined (hd : a.keyValueSeparator ≠ a.pairSeparator) (h : Renderable a pairs)
    {e : Bytes × Bytes} (he : e ∈ pairs) : a.pairSeparator ∉ joined a e := by
  simp only [joined, List.mem_append, List.mem_cons, not_or]
  exact ⟨(h.keys e he).2, hd.symm, h.values e he⟩

theorem split_render (hd : a.keyValueSeparator ≠ a.pairSeparator) (h : Renderable a pairs) :
    (render a pairs).splitOn a.pairSeparator =
      if pairs = [] then [[]] else pairs.map (joined a) := by
  split
  · next hnil =>
    subst hnil
    rfl
  · next hne =>
    refine List.splitOn_intercalate _ ?_ (by simpa using hne)
    intro seg hseg
    obtain ⟨e, he, rfl⟩ := List.mem_map.mp hseg
    exact notMem_joined hd h he

/-- A map comes back unchanged just when every pair has a segment of its own that is not
overlooked. -/
theorem pairs_round_trip_iff (hd : a.keyValueSeparator ≠ a.pairSeparator) {str : StringView}
    (hs : str.bytes = render a pairs) (hc : str.count a.pairSeparator ≤ intMax) :
    a.call str = .ok pairs ↔ Renderable a pairs := by
  refine ⟨renderable_of_call hc, ?_⟩
  intro h
  have hread := read_segments h
  rw [call_of_count_le hc, reference, hs, split_render hd h]
  by_cases hnil : pairs = []
  · subst hnil
    rfl
  · rw [if_neg hnil, hread]

theorem pairs_round_trip_iff_blank :
    KeyValueAdaptor.standard.call (.ofText "a=1=2&=&=b&=") ≠
        .ok [(text "a", text "1=2"), ([], []), ([], text "b"), ([], [])] ∧
      KeyValueAdaptor.standard.call (.ofText "a=1=2&=b&=") =
        .ok [(text "a", text "1=2"), ([], text "b"), ([], [])] := by
  refine ⟨?_, ?_⟩
  · intro h
    have hr := (pairs_round_trip_iff (a := .standard) (by decide) (by decide +kernel)
      (by decide +kernel)).mp h
    exact hr.inner ([], []) (by decide +kernel) rfl
  · refine (pairs_round_trip_iff (a := .standard) (by decide) (by decide +kernel)
      (by decide +kernel)).mpr ⟨by decide +kernel, by decide +kernel, by decide +kernel⟩

/-- Two texts around a separator are read as one after the other, up to the order of the entries,
unless the first ends in the lone separator that only an end lets through. -/
theorem call_append_iff {s t u : StringView}
    (hu : u.bytes = s.bytes ++ a.pairSeparator :: t.bytes)
    (hc : u.count a.pairSeparator ≤ intMax) {first second : MapType}
    (hs : a.call s = .ok first) (ht : a.call t = .ok second) :
    (∃ both, a.call u = .ok both ∧ both.Perm (first ++ second)) ↔
      (s.bytes.splitOn a.pairSeparator).getLast? ≠ some [a.keyValueSeparator] := by
  have hcount : u.count a.pairSeparator =
      s.count a.pairSeparator + (t.count a.pairSeparator + 1) := by
    simp only [StringView.count, hu, List.count_append, List.count_cons_self]
  have hsplit : u.bytes.splitOn a.pairSeparator =
      s.bytes.splitOn a.pairSeparator ++ t.bytes.splitOn a.pairSeparator := by
    rw [hu, List.splitOn_append_cons_self]
  have hlast : (u.bytes.splitOn a.pairSeparator).getLast? =
      (t.bytes.splitOn a.pairSeparator).getLast? := by
    rw [hsplit, List.getLast?_append_of_ne_nil _ (List.splitOn_ne_nil _ _)]
  have href : reference a u.bytes = reference a s.bytes ++ reference a t.bytes := by
    rw [reference, hsplit, List.filter_append, List.map_append]
    rfl
  rw [call_of_count_le (by omega)] at hs ht
  rw [call_of_count_le hc, href, hlast, ← Except.ok.inj hs, ← Except.ok.inj ht]
  constructor
  · rintro ⟨both, hboth, hperm⟩ hl
    have hlen := hperm.length_eq
    rw [← Except.ok.inj hboth, if_pos hl] at hlen
    simp only [List.length_append, List.length_singleton] at hlen
    omega
  · intro hl
    rw [if_neg hl, List.append_nil]
    exact ⟨_, rfl, List.Perm.of_eq (List.append_assoc _ _ _)⟩

theorem call_append_iff_halves :
    ∃ both, KeyValueAdaptor.standard.call (.ofText "a=1&&b=2&=") = .ok both ∧
      both.Perm ([(text "a", text "1")] ++ [(text "b", text "2"), ([], [])]) :=
  (call_append_iff (a := .standard) (s := .ofText "a=1&") (t := .ofText "b=2&=")
    (by decide +kernel) (by decide +kernel) (by decide +kernel) (by decide +kernel)).mpr
    (by decide +kernel)

end Pairs

section Paths

variable {a : ParamPathAdaptor} {list : ListType} {path : StringView}

def pieceOf (a : ParamPathAdaptor) (segment : PathSegment) : Bytes :=
  segment.1 ++ if segment.2 = [] then [] else a.paramSign :: segment.2

def spell (a : ParamPathAdaptor) (list : ListType) : Bytes :=
  list.flatMap fun segment => a.pathSeparator :: pieceOf a segment

structure Clean (a : ParamPathAdaptor) (segment : PathSegment) : Prop where
  name : a.paramSign ∉ segment.1 ∧ a.pathSeparator ∉ segment.1
  params : a.pathSeparator ∉ segment.2

theorem clean_segmentOf {piece : Bytes} (h : a.pathSeparator ∉ piece) :
    Clean a (a.segmentOf piece) where
  name := ⟨notMem_cutBefore a.paramSign piece, fun hm => h ((List.take_prefix _ _).mem hm)⟩
  params hm := h ((List.drop_suffix _ _).mem hm)

theorem segmentOf_pieceOf {segment : PathSegment} (h : Clean a segment) :
    a.segmentOf (pieceOf a segment) = segment := by
  obtain ⟨name, params⟩ := segment
  by_cases hp : params = []
  · subst hp
    rw [pieceOf, if_pos rfl, List.append_nil, ParamPathAdaptor.segmentOf,
      cutBefore_of_notMem h.name.1, cutAfter_of_notMem h.name.1]
  · obtain ⟨hbefore, hafter⟩ := cut_append h.name.1 params
    rw [pieceOf, if_neg hp, ParamPathAdaptor.segmentOf, hbefore, hafter]

theorem notMem_pieceOf (hd : a.pathSeparator ≠ a.paramSign) {segment : PathSegment}
    (h : Clean a segment) : a.pathSeparator ∉ pieceOf a segment := by
  rw [pieceOf, List.mem_append, not_or]
  refine ⟨h.name.2, ?_⟩
  split
  · simp
  · rw [List.mem_cons, not_or]
    exact ⟨hd, h.params⟩

theorem flatMap_eq_intercalate (c : Byte) (pieces : List Bytes) :
    pieces.flatMap (c :: ·) = [c].intercalate ([] :: pieces) := by
  induction pieces with
  | nil => rfl
  | cons piece pieces ih =>
    rw [List.flatMap_cons, ih, List.intercalate_cons_cons, List.nil_append]
    cases pieces with
    | nil => simp
    | cons next rest => simp [List.intercalate_cons_cons]

theorem splitOn_flatMap {c : Byte} {pieces : List Bytes} (h : ∀ piece ∈ pieces, c ∉ piece) :
    (pieces.flatMap (c :: ·)).splitOn c = [] :: pieces := by
  rw [flatMap_eq_intercalate]
  refine List.splitOn_intercalate _ ?_ (List.cons_ne_nil _ _)
  intro piece hp
  rcases List.mem_cons.mp hp with rfl | hp
  · simp
  · exact h piece hp

theorem spell_eq (list : ListType) :
    spell a list = (list.map (pieceOf a)).flatMap (a.pathSeparator :: ·) := by
  rw [List.flatMap_map]
  rfl

theorem pieces_spell (hd : a.pathSeparator ≠ a.paramSign)
    (h : ∀ segment ∈ list, Clean a segment) :
    a.pieces (spell a list) = list.map (pieceOf a) := by
  rw [spell_eq, ParamPathAdaptor.pieces, splitOn_flatMap, List.tail_cons]
  intro piece hp
  obtain ⟨segment, hs, rfl⟩ := List.mem_map.mp hp
  exact notMem_pieceOf hd (h segment hs)

/-- A list comes back unchanged just when its parts avoid the signs that end them. -/
theorem path_round_trip_iff (hd : a.pathSeparator ≠ a.paramSign)
    (hp : path.bytes = spell a list) (hc : path.count a.pathSeparator ≤ intMax) :
    a.call path = .ok list ↔ ∀ segment ∈ list, Clean a segment := by
  rw [path_call_of_count_le hc]
  constructor
  · intro h segment hs
    rw [← Except.ok.inj h] at hs
    obtain ⟨piece, hpiece, rfl⟩ := List.mem_map.mp hs
    exact clean_segmentOf (mem_splitOn (List.mem_of_mem_tail hpiece)).1
  · intro h
    rw [hp, pieces_spell hd h, List.map_map]
    calc Except.ok (list.map (a.segmentOf ∘ pieceOf a))
        = .ok (list.map id) := congrArg Except.ok
          (List.map_congr_left fun segment hs => segmentOf_pieceOf (h segment hs))
      _ = .ok list := congrArg Except.ok (List.map_id list)

theorem path_round_trip_iff_params :
    ParamPathAdaptor.standard.call (.ofText "/a?b?c//d") =
      .ok [(text "a", text "b?c"), ([], []), (text "d", [])] := by
  have hp : (StringView.ofText "/a?b?c//d").bytes =
      spell .standard [(text "a", text "b?c"), ([], []), (text "d", [])] := by decide +kernel
  refine (path_round_trip_iff (by decide) hp (by decide +kernel)).mpr ?_
  intro segment hs
  simp only [List.mem_cons, List.not_mem_nil, or_false] at hs
  rcases hs with rfl | rfl | rfl <;> exact ⟨by decide, by decide⟩

/-- A sign that no params follow, or text before the first separator, is lost on the way. -/
structure Kept (a : ParamPathAdaptor) (path : Bytes) : Prop where
  lead : path = [] ∨ path.head? = some a.pathSeparator
  signs : ∀ piece ∈ a.pieces path, a.paramSign ∈ piece → cutAfter a.paramSign piece ≠ []

theorem pieceOf_segmentOf_iff {piece : Bytes} :
    pieceOf a (a.segmentOf piece) = piece ↔
      (a.paramSign ∈ piece → cutAfter a.paramSign piece ≠ []) := by
  by_cases h : a.paramSign ∈ piece
  · obtain ⟨hpiece, _⟩ := cut_of_mem h
    rw [pieceOf, ParamPathAdaptor.segmentOf]
    dsimp only
    constructor
    · intro heq _ hnil
      rw [if_pos hnil, List.append_nil] at heq
      have hlen := congrArg List.length hpiece
      rw [heq, hnil, List.length_append, List.length_singleton] at hlen
      omega
    · intro hne
      rw [if_neg (hne h)]
      exact hpiece.symm
  · rw [pieceOf, ParamPathAdaptor.segmentOf, cutBefore_of_notMem h, cutAfter_of_notMem h]
    simp [h]

theorem flatMap_pieces {text : Bytes} (h : text.head? = some a.pathSeparator) :
    (a.pieces text).flatMap (a.pathSeparator :: ·) = text := by
  obtain ⟨rest, rfl⟩ : ∃ rest, text = a.pathSeparator :: rest := by
    cases text with
    | nil => cases h
    | cons c rest => exact ⟨rest, congrArg (· :: rest) (Option.some.inj h)⟩
  have hsplit : (a.pathSeparator :: rest).splitOn a.pathSeparator =
      [] :: a.pieces (a.pathSeparator :: rest) := by
    rw [ParamPathAdaptor.pieces, splitOn_of_mem List.mem_cons_self]
    simp [cutBefore]
  rw [flatMap_eq_intercalate, ← hsplit, List.intercalate_splitOn]

/-- A path can be had back from its list just when it starts with a separator and no sign stands
at the end of its piece. -/
theorem path_spelled_iff (hd : a.pathSeparator ≠ a.paramSign)
    (hc : path.count a.pathSeparator ≤ intMax) (h : a.call path = .ok list) :
    spell a list = path.bytes ↔ Kept a path.bytes := by
  rw [path_call_of_count_le hc] at h
  obtain rfl := Except.ok.inj h
  have hclean : ∀ segment ∈ (a.pieces path.bytes).map a.segmentOf, Clean a segment := by
    intro segment hs
    obtain ⟨piece, hpiece, rfl⟩ := List.mem_map.mp hs
    exact clean_segmentOf (mem_splitOn (List.mem_of_mem_tail hpiece)).1
  constructor
  · intro heq
    have hpieces := pieces_spell hd hclean
    rw [heq, List.map_map] at hpieces
    have hsame : ∀ piece ∈ a.pieces path.bytes, id piece = pieceOf a (a.segmentOf piece) :=
      List.map_inj_left.mp ((List.map_id _).trans hpieces)
    constructor
    · rw [← heq]
      cases (a.pieces path.bytes).map a.segmentOf with
      | nil => exact Or.inl rfl
      | cons segment rest => exact Or.inr rfl
    · intro piece hpiece
      exact pieceOf_segmentOf_iff.mp (hsame piece hpiece).symm
  · intro hk
    have hsame : ((a.pieces path.bytes).map a.segmentOf).map (pieceOf a) =
        a.pieces path.bytes := by
      rw [List.map_map]
      calc (a.pieces path.bytes).map (pieceOf a ∘ a.segmentOf)
          = (a.pieces path.bytes).map id := List.map_congr_left fun piece hpiece =>
            pieceOf_segmentOf_iff.mpr (hk.signs piece hpiece)
        _ = a.pieces path.bytes := List.map_id _
    rw [spell_eq, hsame]
    rcases hk.lead with hnil | hhead
    · rw [hnil]
      rfl
    · exact flatMap_pieces hhead

theorem path_spelled_iff_params :
    spell .standard [(text "a", text "b?c"), ([], []), (text "d", [])] = text "/a?b?c//d" ∧
      spell .standard [(text "a", []), (text "b", [])] ≠ text "lead/a?/b" := by
  constructor
  · have h : ParamPathAdaptor.standard.call (.ofText "/a?b?c//d") =
        .ok [(text "a", text "b?c"), ([], []), (text "d", [])] := by decide +kernel
    exact (path_spelled_iff (by decide) (by decide +kernel) h).mpr
      ⟨by decide +kernel, by decide +kernel⟩
  · intro heq
    have h : ParamPathAdaptor.standard.call (.ofText "lead/a?/b") =
        .ok [(text "a", []), (text "b", [])] := by decide +kernel
    have hk := (path_spelled_iff (by decide) (by decide +kernel) h).mp heq
    exact absurd hk.lead (by decide +kernel)

end Paths

end AdaptorRoundTrips
