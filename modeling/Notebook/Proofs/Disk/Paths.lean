/-
  Notebook.Proofs.Disk.Paths — the directories on the way of a path.

  The text of a path is its pieces with slashes between them, so cutting a path at a slash cuts its
  steps in two.  A directory on the way is the path cut at a slash behind which some piece still
  leads on: its steps are the first steps of the path, and one of the others goes up or down.

  Main results:
    * `Path.pieces_intercalate`, `Path.intercalate_pieces` — pieces and texts stand for each other,
    * `Path.steps_append` — the steps of two paths with a slash between them,
    * `Path.onWay_of_mem_parents` — what the directories on the way are.
-/
import Notebook.Disk.Path
import Notebook.Proofs.Text.Sources

namespace Notebook.Path

variable {p q r : Path} {before after piece : List Char}

/-! ## §1. Pieces and texts. -/

theorem piecesOf_eq_splitOn (cs : List Char) : piecesOf cs = cs.splitOn '/' := by
  refine eq_splitOn rfl (fun _ => rfl) (fun hc hrest => ?_) cs
  rw [piecesOf, hrest]
  exact hc

theorem piecesOf_append_slash (before after : List Char) :
    piecesOf (before ++ '/' :: after) = piecesOf before ++ piecesOf after := by
  rw [piecesOf_eq_splitOn, piecesOf_eq_splitOn, piecesOf_eq_splitOn, List.splitOn_append_cons_self]

/-- A text without a slash is one piece. -/
theorem piecesOf_of_slash_notMem (h : '/' ∉ piece) : piecesOf piece = [piece] := by
  rw [piecesOf_eq_splitOn, List.splitOn_eq_singleton h]

theorem slash_notMem_of_mem_piecesOf {cs : List Char} (h : piece ∈ piecesOf cs) : '/' ∉ piece := by
  rw [piecesOf_eq_splitOn] at h
  exact separator_notMem_of_mem_splitOn h

/-- The text of a path is its pieces with slashes between them. -/
theorem intercalate_pieces (p : Path) : "/".intercalate p.pieces = p.text := by
  have hpieces : (p.pieces.map String.toList) = piecesOf p.text.toList := by
    rw [pieces, List.map_map]
    exact List.map_id'' (fun cs => String.toList_ofList) _
  have hslash : "/".toList = ['/'] := rfl
  rw [← String.toList_inj, String.toList_intercalate, hpieces, piecesOf_eq_splitOn, hslash,
    List.intercalate_splitOn]

/-- Pieces with slashes between them make a path with these pieces. -/
theorem pieces_intercalate {ps : List String} (hne : ps ≠ [])
    (h : ∀ piece ∈ ps, '/' ∉ piece.toList) : (⟨"/".intercalate ps⟩ : Path).pieces = ps := by
  unfold pieces
  induction ps with
  | nil => exact absurd rfl hne
  | cons first later ih =>
    have hfirst := piecesOf_of_slash_notMem (h first List.mem_cons_self)
    by_cases hlater : later = []
    · rw [hlater, String.intercalate_singleton, hfirst, List.map_singleton, String.ofList_toList]
    · have hrest := ih hlater fun piece hmem => h piece (List.mem_cons_of_mem first hmem)
      have htext : ("/".intercalate (first :: later)).toList =
          first.toList ++ '/' :: ("/".intercalate later).toList := by
        rw [String.intercalate_cons_of_ne_nil hlater, String.toList_append, String.toList_append,
          List.append_assoc]
        rfl
      rw [htext, piecesOf_append_slash, hfirst, List.singleton_append, List.map_cons,
        String.ofList_toList, hrest]

theorem slash_notMem_of_mem_pieces {name : String} (h : name ∈ p.pieces) : '/' ∉ name.toList := by
  obtain ⟨piece, hpiece, rfl⟩ := List.mem_map.1 h
  rw [String.toList_ofList]
  exact slash_notMem_of_mem_piecesOf hpiece

/-- The steps of two paths with a slash between them. -/
theorem steps_append (q r : Path) :
    (⟨q.text ++ "/" ++ r.text⟩ : Path).steps = q.steps ++ r.steps := by
  have htext : (q.text ++ "/" ++ r.text).toList = q.text.toList ++ '/' :: r.text.toList := by
    rw [String.toList_append, String.toList_append, List.append_assoc]
    rfl
  unfold steps pieces
  rw [htext, piecesOf_append_slash, List.map_append, List.filterMap_append]

/-! ## §2. Directories on the way. -/

/-- The steps go on to somewhere else. -/
def LeadsOn (steps : List Step) : Prop := ∃ step ∈ steps, step ≠ .stay

/-- The path `q` is `p` cut at a slash, and what is cut off leads on. -/
def OnWay (q p : Path) : Prop :=
  ∃ r : Path, p.text = q.text ++ "/" ++ r.text ∧ q.steps ≠ [] ∧ LeadsOn r.steps

theorem leadsOn_of_leads {name : String} (hname : leads name = true) (hmem : name ∈ p.pieces) :
    LeadsOn p.steps := by
  cases hstep : stepOf? name with
  | none =>
    rw [stepOf?.eq_def] at hstep
    split at hstep <;> simp_all [leads]
  | some step =>
    refine ⟨step, List.mem_filterMap.2 ⟨name, hmem, hstep⟩, ?_⟩
    rintro rfl
    rw [stepOf?.eq_def] at hstep
    split at hstep <;> simp_all [leads]

/-- Each path on the way is that of a piece that leads on and of all pieces before it. -/
theorem mem_waysBack {back : List String} (h : q ∈ waysBack back) :
    ∃ later piece before, back = later ++ piece :: before ∧ leads piece = true ∧
      q = ofPiecesBack (piece :: before) := by
  induction back with
  | nil => cases h
  | cons piece before ih =>
    rw [waysBack] at h
    by_cases hleads : leads piece = true
    · rw [if_pos hleads] at h
      rcases List.mem_cons.1 h with rfl | hmem
      · exact ⟨[], piece, before, rfl, hleads, rfl⟩
      · obtain ⟨later, piece', before', rfl, hpiece, hq⟩ := ih hmem
        exact ⟨piece :: later, piece', before', rfl, hpiece, hq⟩
    · rw [if_neg hleads] at h
      obtain ⟨later, piece', before', rfl, hpiece, hq⟩ := ih h
      exact ⟨piece :: later, piece', before', rfl, hpiece, hq⟩

/-- Of the longer ones behind the first, what follows them leads on. -/
theorem mem_drop_waysBack {back : List String} (h : q ∈ (waysBack back).drop 1) :
    ∃ later piece before, back = later ++ piece :: before ∧ leads piece = true ∧
      q = ofPiecesBack (piece :: before) ∧ ∃ name ∈ later, leads name = true := by
  induction back with
  | nil => cases h
  | cons last back ih =>
    rw [waysBack] at h
    by_cases hleads : leads last = true
    · rw [if_pos hleads, List.drop_one, List.tail_cons] at h
      obtain ⟨later, piece, before, rfl, hpiece, hq⟩ := mem_waysBack h
      exact ⟨last :: later, piece, before, rfl, hpiece, hq, last, List.mem_cons_self, hleads⟩
    · rw [if_neg hleads] at h
      obtain ⟨later, piece, before, rfl, hpiece, hq, name, hname, hon⟩ := ih h
      exact ⟨last :: later, piece, before, rfl, hpiece, hq, name, List.mem_cons_of_mem last hname,
        hon⟩

/-- **What the directories on the way are.** -/
theorem onWay_of_mem_parents (h : q ∈ p.parents) : OnWay q p := by
  obtain ⟨later, piece, before, hback, hpiece, rfl, name, hname, hleads⟩ := mem_drop_waysBack h
  have hpieces : p.pieces = (piece :: before).reverse ++ later.reverse := by
    rw [← List.reverse_append, ← hback, List.reverse_reverse]
  have hslash : ∀ name ∈ p.pieces, '/' ∉ name.toList :=
    fun name hmem => slash_notMem_of_mem_pieces hmem
  rw [hpieces] at hslash
  have hbefore : (piece :: before).reverse ≠ [] := by simp
  have hlater : later.reverse ≠ [] := List.reverse_ne_nil_iff.2 (List.ne_nil_of_mem hname)
  refine ⟨⟨"/".intercalate later.reverse⟩, ?_, ?_, ?_⟩
  · rw [← intercalate_pieces p, hpieces, String.intercalate_append_of_ne_nil hbefore hlater]
    rfl
  · have hq := pieces_intercalate hbefore fun name hmem => hslash name (List.mem_append_left _ hmem)
    have hmem : piece ∈ (ofPiecesBack (piece :: before)).pieces := by
      rw [ofPiecesBack, hq]
      simp
    obtain ⟨step, hstep, -⟩ := leadsOn_of_leads hpiece hmem
    exact List.ne_nil_of_mem hstep
  · have hr := pieces_intercalate hlater fun name hmem => hslash name (List.mem_append_right _ hmem)
    refine leadsOn_of_leads hleads ?_
    rw [hr]
    exact List.mem_reverse.2 hname

end Notebook.Path
