/-
  Notebook.Proofs.Text.Sources — a normal source stands for all sources with its lines.

  Lines are ended by line feeds only, so a carriage return is a character of its line.  In front of
  a line feed it is a blank at the end of the line, and whichever pass takes it away, the trimmed
  line is the same.  So the passes arrive at the lines that matter, and the text that they make can
  be taken apart into these lines again.

  Main results:
    * `splitLines_joinLines` — lines that were joined are found again,
    * `map_trimEnd_splitLines_unifyEnds` — trimmed lines do not tell how lines were ended,
    * `normalizeSource_eq` — the passes make the normal source,
    * `significantLines_normalSource` — a normal source keeps the lines that matter,
    * `normalSource_eq_self_iff` — which texts are normal sources,
    * `normalizeSource_canonical` — one text for each list of lines, and nothing else is changed.
-/
import Mathlib.Data.List.DropRight
import Mathlib.Data.List.Forall2
import Notebook.Text.Passes

namespace Notebook

variable {c : Char} {line text : List Char} {lines : List (List Char)}

/-! ## §1. Pieces of a text. -/

/-- What goes through a text from its end, and begins a new piece at each separator, takes the text
apart at the separators. -/
theorem eq_splitOn {pieces : List Char → List (List Char)} {separator : Char}
    (hnil : pieces [] = [[]]) (hseparator : ∀ rest, pieces (separator :: rest) = [] :: pieces rest)
    (hother : ∀ {c rest piece later}, c ≠ separator → pieces rest = piece :: later →
      pieces (c :: rest) = (c :: piece) :: later)
    (text : List Char) : pieces text = text.splitOn separator := by
  induction text with
  | nil => rw [hnil, List.splitOn_nil]
  | cons c rest ih =>
    rw [List.splitOn_cons_eq_if_modifyHead]
    by_cases hc : c = separator
    · rw [if_pos (beq_iff_eq.2 hc), hc, hseparator, ih]
    · obtain ⟨piece, later, hrest⟩ :=
        List.exists_cons_of_ne_nil (List.splitOn_ne_nil separator rest)
      rw [if_neg (mt beq_iff_eq.1 hc), hother hc (ih.trans hrest), hrest, List.modifyHead_cons]

/-- The separator is in none of the pieces. -/
theorem separator_notMem_of_mem_splitOn {separator : Char} {piece : List Char}
    (h : piece ∈ text.splitOn separator) : separator ∉ piece := by
  induction text generalizing piece with
  | nil =>
    rw [List.splitOn_nil] at h
    rw [List.mem_singleton.1 h]
    exact List.not_mem_nil
  | cons c rest ih =>
    rw [List.splitOn_cons_eq_if_modifyHead] at h
    by_cases hc : c = separator
    · rw [if_pos (beq_iff_eq.2 hc)] at h
      rcases List.mem_cons.1 h with rfl | hlater
      · exact List.not_mem_nil
      · exact ih hlater
    · obtain ⟨first, later, hrest⟩ :=
        List.exists_cons_of_ne_nil (List.splitOn_ne_nil separator rest)
      rw [if_neg (mt beq_iff_eq.1 hc), hrest, List.modifyHead_cons] at h
      rw [hrest] at ih
      rcases List.mem_cons.1 h with rfl | hlater
      · rw [List.mem_cons, not_or]
        exact ⟨Ne.symm hc, ih List.mem_cons_self⟩
      · exact ih (List.mem_cons_of_mem first hlater)

theorem splitLines_eq_splitOn (text : List Char) : splitLines text = text.splitOn '\n' := by
  refine eq_splitOn rfl (fun _ => rfl) (fun hc hrest => ?_) text
  rw [splitLines, hrest]
  exact hc

theorem splitLines_ne_nil (text : List Char) : splitLines text ≠ [] := by
  rw [splitLines_eq_splitOn]
  exact List.splitOn_ne_nil '\n' text

/-- A character other than a line feed belongs to the first line. -/
theorem splitLines_cons (hc : c ≠ '\n') (rest : List Char) :
    splitLines (c :: rest) = (splitLines rest).modifyHead (List.cons c) := by
  rw [splitLines_eq_splitOn, splitLines_eq_splitOn, List.splitOn_cons_eq_if_modifyHead,
    if_neg (mt beq_iff_eq.1 hc)]

theorem feed_notMem_of_mem_splitLines (h : line ∈ splitLines text) : '\n' ∉ line := by
  rw [splitLines_eq_splitOn] at h
  exact separator_notMem_of_mem_splitOn h

theorem joinLines_eq_intercalate (lines : List (List Char)) :
    joinLines lines = ['\n'].intercalate lines := by
  fun_induction joinLines lines with
  | case1 => rfl
  | case2 line => rw [List.intercalate_singleton]
  | case3 line lines hlines ih =>
    rw [List.intercalate_cons_of_ne_nil hlines, ← ih, List.append_assoc, List.singleton_append]

theorem joinLines_splitLines (text : List Char) : joinLines (splitLines text) = text := by
  rw [joinLines_eq_intercalate, splitLines_eq_splitOn, List.intercalate_splitOn]

/-- Lines that were joined are found again. -/
theorem splitLines_joinLines (hne : lines ≠ []) (h : ∀ line ∈ lines, '\n' ∉ line) :
    splitLines (joinLines lines) = lines := by
  rw [joinLines_eq_intercalate, splitLines_eq_splitOn, List.splitOn_intercalate '\n' h hne]

/-! ## §2. Blanks at the end of a line. -/

theorem trimEnd_eq_rdropWhile (line : List Char) : trimEnd line = line.rdropWhile isBlank := rfl

/-- What is cut off is blank. -/
theorem exists_blanks (line : List Char) :
    ∃ blanks, line = trimEnd line ++ blanks ∧ ∀ c ∈ blanks, isBlank c = true :=
  ⟨line.rtakeWhile isBlank, List.rdropWhile_append_rtakeWhile.symm,
    fun _ hc => List.mem_rtakeWhile_imp hc⟩

/-- More blanks make no difference. -/
theorem trimEnd_append_blanks {blanks : List Char} (h : ∀ c ∈ blanks, isBlank c = true)
    (line : List Char) : trimEnd (line ++ blanks) = trimEnd line := by
  unfold trimEnd
  rw [List.reverse_append,
    List.dropWhile_append_of_pos fun c hc => h c (List.mem_reverse.1 hc)]

theorem trimEnd_eq_nil_iff : trimEnd line = [] ↔ ∀ c ∈ line, isBlank c = true :=
  List.rdropWhile_eq_nil_iff

theorem trimEnd_trimEnd (line : List Char) : trimEnd (trimEnd line) = trimEnd line :=
  List.rdropWhile_idempotent isBlank line

/-- A trimmed line ends in something that is not blank. -/
theorem trimEnd_eq_self_iff : trimEnd line = line ↔ ∀ c ∈ line.getLast?, isBlank c = false := by
  rw [trimEnd_eq_rdropWhile, List.rdropWhile_eq_self_iff]
  constructor
  · intro h c hc
    obtain ⟨hne, rfl⟩ := List.mem_getLast?_eq_getLast hc
    exact Bool.eq_false_iff.2 (h hne)
  · intro h hne
    rw [h _ (List.getLast_mem_getLast? hne)]
    exact Bool.false_ne_true

/-- What stands in front does not matter for what is cut off. -/
theorem trimEnd_cons_trimEnd (c : Char) (line : List Char) :
    trimEnd (c :: trimEnd line) = trimEnd (c :: line) := by
  obtain ⟨blanks, hline, hblanks⟩ := exists_blanks line
  calc trimEnd (c :: trimEnd line)
      = trimEnd (c :: trimEnd line ++ blanks) := (trimEnd_append_blanks hblanks _).symm
    _ = trimEnd (c :: line) := by rw [List.cons_append, ← hline]

/-- A carriage return at the end of a line is one of its blanks. -/
theorem trimEnd_dropReturn (line : List Char) : trimEnd (dropReturn line) = trimEnd line := by
  unfold dropReturn
  split
  · rename_i hreturn
    have hblanks : ∀ c ∈ ['\r'], isBlank c = true := by
      intro c hc
      rw [List.mem_singleton.1 hc]
      rfl
    rw [← trimEnd_append_blanks hblanks line.dropLast, List.dropLast_append_getLast? _ hreturn]
  · rfl

/-! ## §3. The passes. -/

/-- **Trimmed lines do not tell how lines were ended.** -/
theorem map_trimEnd_splitLines_unifyEnds (text : List Char) :
    (splitLines (unifyEnds text)).map trimEnd = (splitLines text).map trimEnd := by
  fun_induction unifyEnds text with
  | case1 => rfl
  | case2 rest ih =>
    -- the carriage return is left alone on a line that is trimmed to nothing
    rw [splitLines, splitLines_cons (by decide), splitLines, List.map_cons, ih]
    rfl
  | case3 c rest hpair ih =>
    by_cases hc : c = '\n'
    · rw [hc, splitLines, splitLines, List.map_cons, List.map_cons, ih]
    · -- the lines are the same but for the first, which has one more character in front
      obtain ⟨first, later, hrest⟩ := List.exists_cons_of_ne_nil (splitLines_ne_nil rest)
      obtain ⟨first', later', hrest'⟩ :=
        List.exists_cons_of_ne_nil (splitLines_ne_nil (unifyEnds rest))
      rw [hrest, hrest', List.map_cons, List.map_cons] at ih
      obtain ⟨hfirst, hlater⟩ := List.cons.inj ih
      rw [splitLines_cons hc, splitLines_cons hc, hrest, hrest', List.modifyHead_cons,
        List.modifyHead_cons, List.map_cons, List.map_cons, hlater, ← trimEnd_cons_trimEnd, hfirst,
        trimEnd_cons_trimEnd]

/-- Nor does it matter that lines are cut off from the text with their ends. -/
theorem filter_map_trimEnd_endedLines (pieces : List (List Char)) :
    ((endedLines pieces).map trimEnd).filter (fun line => !line.isEmpty) =
      (pieces.map trimEnd).filter fun line => !line.isEmpty := by
  fun_induction endedLines pieces with
  | case1 => rfl
  | case2 rest hempty =>
    rw [List.isEmpty_iff.1 hempty]
    rfl
  | case3 rest hfilled => rfl
  | case4 piece next pieces ih =>
    rw [List.map_cons, List.map_cons, List.filter_cons, List.filter_cons, trimEnd_dropReturn, ih]

/-- **The passes make the normal source.** -/
theorem normalizeSource_eq (source : String) : normalizeSource source = normalSource source := by
  unfold normalizeSource normalSource textLines significantLines
  rw [filter_map_trimEnd_endedLines, map_trimEnd_splitLines_unifyEnds]

/-! ## §4. Normal form. -/

/-- A line that a normal source can have. -/
structure IsSignificant (line : List Char) : Prop where
  whole : '\n' ∉ line
  filled : line ≠ []
  trimmed : trimEnd line = line

theorem isSignificant_of_mem (h : line ∈ significantLines text) : IsSignificant line := by
  obtain ⟨hmap, hfilled⟩ := List.mem_filter.1 h
  obtain ⟨piece, hpiece, rfl⟩ := List.mem_map.1 hmap
  refine ⟨fun hfeed => ?_, by simpa using hfilled, trimEnd_trimEnd piece⟩
  exact feed_notMem_of_mem_splitLines hpiece ((List.rdropWhile_prefix isBlank piece).subset hfeed)

/-- Such lines are all the lines that matter. -/
theorem significantLines_eq_of_splitLines (hsplit : splitLines text = lines)
    (h : ∀ line ∈ lines, IsSignificant line) : significantLines text = lines := by
  have htrimmed : lines.map trimEnd = lines.map id :=
    List.map_congr_left fun line hline => (h line hline).trimmed
  unfold significantLines
  rw [hsplit, htrimmed, List.map_id, List.filter_eq_self]
  intro line hline
  simpa using (h line hline).filled

theorem significantLines_joinLines (h : ∀ line ∈ lines, IsSignificant line) :
    significantLines (joinLines lines) = lines := by
  cases lines with
  | nil => rfl
  | cons first later =>
    exact significantLines_eq_of_splitLines
      (splitLines_joinLines (List.cons_ne_nil first later) fun line hline => (h line hline).whole) h

/-- **A normal source keeps the lines that matter.** -/
theorem significantLines_normalSource (source : String) :
    significantLines (normalSource source).toList = significantLines source.toList := by
  unfold normalSource
  rw [String.toList_ofList]
  exact significantLines_joinLines fun _ hline => isSignificant_of_mem hline

/-- It is the same for all sources with these lines. -/
theorem normalSource_eq_iff {a b : String} :
    normalSource a = normalSource b ↔ significantLines a.toList = significantLines b.toList := by
  constructor
  · intro h
    rw [← significantLines_normalSource a, h, significantLines_normalSource]
  · intro h
    unfold normalSource
    rw [h]

theorem normalSource_normalSource (source : String) :
    normalSource (normalSource source) = normalSource source :=
  normalSource_eq_iff.2 (significantLines_normalSource source)

/-- No line is empty, unless the text is, and no line ends in a blank. -/
structure IsNormalText (text : List Char) : Prop where
  filled : ∀ line ∈ splitLines text, line = [] → text = []
  trimmed : ∀ line ∈ splitLines text, ∀ c ∈ line.getLast?, isBlank c = false

theorem isNormalText_joinLines (h : ∀ line ∈ lines, IsSignificant line) :
    IsNormalText (joinLines lines) := by
  cases lines with
  | nil =>
    refine ⟨fun _ _ _ => rfl, fun line hline c hc => ?_⟩
    rw [List.mem_singleton.1 hline] at hc
    exact absurd hc (Option.not_mem_none c)
  | cons first later =>
    have hsplit : splitLines (joinLines (first :: later)) = first :: later :=
      splitLines_joinLines (List.cons_ne_nil first later) fun line hline => (h line hline).whole
    refine ⟨fun line hline hempty => ?_, fun line hline => ?_⟩
    · rw [hsplit] at hline
      exact absurd hempty (h line hline).filled
    · rw [hsplit] at hline
      exact trimEnd_eq_self_iff.1 (h line hline).trimmed

/-- **Which texts are normal sources.** -/
theorem normalSource_eq_self_iff {source : String} :
    normalSource source = source ↔ IsNormalText source.toList := by
  constructor
  · intro h
    rw [← h, normalSource, String.toList_ofList]
    exact isNormalText_joinLines fun _ hline => isSignificant_of_mem hline
  · intro h
    rw [← String.toList_inj, normalSource, String.toList_ofList]
    by_cases hempty : source.toList = []
    · rw [hempty]
      rfl
    · -- the only text with an empty line is the empty text, so here every line matters
      have hlines : ∀ line ∈ splitLines source.toList, IsSignificant line := fun line hline =>
        ⟨feed_notMem_of_mem_splitLines hline, fun hnil => hempty (h.filled line hline hnil),
          trimEnd_eq_self_iff.2 (h.trimmed line hline)⟩
      rw [significantLines_eq_of_splitLines rfl hlines, joinLines_splitLines]

/-! ## §5. What is left of a source. -/

/-- Ends of lines take nothing from lines that matter. -/
theorem endedLines_eq_self (h : ∀ line ∈ lines, IsSignificant line) : endedLines lines = lines := by
  fun_induction endedLines lines with
  | case1 => rfl
  | case2 rest hempty =>
    exact absurd (List.isEmpty_iff.1 hempty) (h rest List.mem_cons_self).filled
  | case3 rest hfilled => rfl
  | case4 piece next pieces ih =>
    -- a carriage return would be a blank at the end of the line
    have hlast := trimEnd_eq_self_iff.1 (h piece List.mem_cons_self).trimmed
    have hreturn : dropReturn piece = piece := by
      refine if_neg fun hreturn => ?_
      exact absurd (hlast '\r' hreturn) (by decide)
    rw [hreturn, ih fun line hline => h line (List.mem_cons_of_mem piece hline)]

theorem textLines_joinLines (h : ∀ line ∈ lines, IsSignificant line) :
    textLines (joinLines lines) = lines := by
  cases lines with
  | nil => rfl
  | cons first later =>
    rw [textLines, splitLines_joinLines (List.cons_ne_nil first later)
      fun line hline => (h line hline).whole, endedLines_eq_self h]

/-- The line `kept` is `line` without the blanks at its end, and it is not empty. -/
def IsTrimmed (kept line : List Char) : Prop :=
  (∃ blanks, line = kept ++ blanks ∧ ∀ c ∈ blanks, isBlank c = true) ∧
    ∃ c ∈ kept.getLast?, isBlank c = false

/-- Whether something on the line is not blank. -/
def shows (line : List Char) : Bool := line.any fun c => !isBlank c

theorem isEmpty_trimEnd (line : List Char) : (!(trimEnd line).isEmpty) = shows line := by
  rw [Bool.eq_iff_iff, Bool.not_eq_true', List.isEmpty_eq_false_iff, ne_eq, trimEnd_eq_nil_iff]
  simp [shows]

theorem isTrimmed_trimEnd (h : shows line = true) : IsTrimmed (trimEnd line) line := by
  rw [← isEmpty_trimEnd, Bool.not_eq_true', List.isEmpty_eq_false_iff] at h
  have hlast := List.getLast_mem_getLast? h
  exact ⟨exists_blanks line, _, hlast, trimEnd_eq_self_iff.1 (trimEnd_trimEnd line) _ hlast⟩

/-- Of the lines of a source, those that show something are kept, without the blanks at their
ends. -/
theorem forall₂_significantLines (text : List Char) :
    List.Forall₂ IsTrimmed (significantLines text) ((splitLines text).filter shows) := by
  have hlines : significantLines text = ((splitLines text).filter shows).map trimEnd := by
    unfold significantLines
    rw [List.filter_map]
    exact congrArg (List.map trimEnd) (List.filter_congr fun line _ => isEmpty_trimEnd line)
  rw [hlines, List.forall₂_map_left_iff, List.forall₂_same]
  exact fun line hline => isTrimmed_trimEnd (List.mem_filter.1 hline).2

/-- **A normal source stands for all sources with its lines, and keeps what is on them.**  The
passes make it, and change it no more; it has no blank line and no blank at the end of a line; two
sources have the same one if, and only if, they have the same lines that matter; and its lines are
those lines of the source that show something, each with all characters but the blanks at its
end. -/
theorem normalizeSource_canonical (source : String) :
    normalizeSource source = normalSource source ∧
      normalizeSource (normalizeSource source) = normalizeSource source ∧
      IsNormalText (normalizeSource source).toList ∧
      (∀ other, normalizeSource source = normalizeSource other ↔
        significantLines source.toList = significantLines other.toList) ∧
      List.Forall₂ IsTrimmed (textLines (normalizeSource source).toList)
        ((splitLines source.toList).filter shows) := by
  have hagain := normalSource_normalSource source
  refine ⟨normalizeSource_eq source, ?_, ?_, fun other => ?_, ?_⟩
  · rw [normalizeSource_eq, normalizeSource_eq, hagain]
  · rw [normalizeSource_eq]
    exact normalSource_eq_self_iff.1 hagain
  · rw [normalizeSource_eq, normalizeSource_eq]
    exact normalSource_eq_iff
  · rw [normalizeSource_eq, normalSource, String.toList_ofList,
      textLines_joinLines fun _ hline => isSignificant_of_mem hline]
    exact forall₂_significantLines source.toList

/-- Carriage returns go where they end a line, and stay where they stand inside one. -/
example : normalizeSource "  a\rb \t\r\r\n\r\n\u2003\r\n\tc\r" = "  a\rb\n\tc" := by decide

end Notebook
