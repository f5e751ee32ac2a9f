import Mir2Pnml.Printer
import Mir2Pnml.Mutex

/-! # Reading printed MIR back

A text `printMir` prints is read back by `parse_mir` as the functions printed
(`parseMir_printMir`), up to the two tables the parser derives from the blocks and the
blocks' line numbers. The proof follows the parser's layers: each printed line matches the
pattern of its kind and no other (declarations, headers, statements, terminators, lone
braces), the body's lines are read as its locals and blocks (`parseFunctionBody_printed`), and
the function texts are found by brace depth, each printed body being balanced.
-/

namespace Mir2Pnml
open Pattern

/-! ## Pieces of the patterns on printed lines -/

theorem pyStrip_indent {sp s : List Char} (hsp : ∀ c ∈ sp, isPySpace c) (hs : Trimmed s) :
    pyStrip (sp ++ s) = s := by
  rw [pyStrip, List.dropWhile_append_of_pos hsp]
  exact pyStrip_of_trimmed hs

theorem mem_of_mem_pyStrip {s : List Char} {c : Char} (h : c ∈ pyStrip s) : c ∈ s :=
  (List.dropWhile_suffix _).subset (List.mem_reverse.mp
    ((List.dropWhile_suffix _).subset (List.mem_reverse.mp h)))

theorem spaces_suffix (cs : List Char) : spaces cs <:+ cs := List.dropWhile_suffix _

theorem search_eq_none_of_mem {α : Type} {m : List Char → Option α} {c : Char}
    (hm : ∀ {cs a}, m cs = some a → c ∈ cs) {cs : List Char} (h : c ∉ cs) : search m cs = none :=
  search_eq_none.mpr fun k _ => by
    cases hk : m (cs.drop k) with
    | none => rfl
    | some a => exact absurd ((List.drop_suffix k cs).subset (hm hk)) h

theorem letAt_mem {cs : List Char} {c : LetCaptures} (h : letAt cs = some c) : 't' ∈ cs := by
  obtain ⟨r, h1, -⟩ := Option.bind_eq_some.mp h
  rw [lit_eq_some h1]
  simp

theorem bbHeaderAt_mem {cs k : List Char} (h : bbHeaderAt cs = some k) : '\x7b' ∈ cs := by
  simp only [bbHeaderAt, bind, Option.bind_eq_some, pure] at h
  obtain ⟨r1, h1, ⟨k', r2⟩, h2, r3, h3, r4, h4, -⟩ := h
  have hopt : ∀ x, (lit "(cleanup)" x).getD x <:+ x := fun x => by
    cases hx : lit "(cleanup)" x
    · exact List.suffix_refl _
    · exact lit_suffix hx
  have hsuf : spaces r3 <:+ cs := (spaces_suffix _).trans <| (lit_suffix h3).trans <|
    (spaces_suffix _).trans <| (hopt _).trans <| (spaces_suffix _).trans <|
    (run1_suffix h2).trans (lit_suffix h1)
  exact hsuf.subset (by rw [lit_eq_some h4]; simp)

theorem pyContains_of_infix {s sub : List Char} (h : sub <:+: s) : pyContains s sub = true := by
  obtain ⟨xs, ys, rfl⟩ := h
  exact List.any_eq_true.mpr ⟨sub ++ ys, (List.mem_tails _ _).mpr ⟨xs, by simp⟩, by simp⟩

theorem pyContains_of_not_mem {s sub : List Char} {c : Char} (h : c ∉ s) :
    pyContains s (c :: sub) = false :=
  List.any_eq_false.mpr fun t ht hp => by
    obtain ⟨u, rfl⟩ := List.isPrefixOf_iff_prefix.mp hp
    exact h (((List.mem_tails _ _).mp ht).subset (by simp))

theorem digits1_append {ds : List Char} (hne : ds ≠ []) (hd : ∀ c ∈ ds, isPyDigit c) {c : Char}
    (hc : isPyDigit c = false) (rest : List Char) : digits1 (ds ++ c :: rest) = some (ds, c :: rest) :=
  run1_append hne hd (by simp [hc])

theorem isLocalName_iff {s : List Char} :
    isLocalName s = true ↔ ∃ ds, s = '_' :: ds ∧ ds ≠ [] ∧ ∀ c ∈ ds, isPyDigit c := by
  constructor
  · intro h
    unfold isLocalName at h
    split at h
    · simp only [Bool.and_eq_true, Bool.not_eq_true', List.isEmpty_eq_false, List.all_eq_true] at h
      exact ⟨_, rfl, h⟩
    · cases h
  · rintro ⟨ds, rfl, hne, hd⟩
    simp [isLocalName, hne, List.all_eq_true.mpr hd]

theorem isHeaderLine_of_not_mem {ln : List Char} (h : '\x7b' ∉ ln) : isHeaderLine ln = false := by
  cases hk : bbHeaderAt (pyStrip ln) with
  | none => simp [isHeaderLine, hk]
  | some k => exact absurd (mem_of_mem_pyStrip (bbHeaderAt_mem hk)) h

theorem isBodyLine_of_inline {ln : List Char} (h : Inline ln) : isBodyLine ln = true := by
  have hc : isCloseLine ln = false := by
    simp only [isCloseLine, decide_eq_false_iff_not]
    exact fun he => h.2.2 (mem_of_mem_pyStrip (by rw [he]; simp))
  simp [isBodyLine, isHeaderLine_of_not_mem h.2.1, hc]

theorem isBodyLine_close : isBodyLine "    \x7d".data = false := by decide

/-! ## Declarations -/

theorem LocalDecl.letAt_printLine {d : LocalDecl} (h : d.Printable) :
    letAt ("let ".data ++ (if d.isMut then "mut " else "").data ++ d.name.data ++ ": ".data ++
      d.tyStr.data ++ ";".data) = some ⟨d.isMut, d.name.data, d.tyStr.data⟩ := by
  obtain ⟨hname, hne, htrim, -, hsemi⟩ := h
  obtain ⟨ds, hds, hdne, hdd⟩ := isLocalName_iff.mp hname
  have hty : spacesNoneOf1 ';' (' ' :: (d.tyStr.data ++ [';'])) = some (d.tyStr.data, [';']) := by
    rw [spacesNoneOf1, spaces, List.dropWhile_cons_of_pos (by decide), ← spaces, spaces,
      dropWhile_space_append htrim.1 _ hne, noneOf1_append hne hsemi]
  cases d.isMut <;>
    simp [letAt, lit_eq_ite, hds, localName, digits1_append hdne hdd (c := ':') rfl, spaces, isPySpace, hty,
      spaces1]

theorem LocalDecl.pyStrip_printLine (d : LocalDecl) :
    pyStrip d.printLine = "let ".data ++ (if d.isMut then "mut " else "").data ++ d.name.data ++ ": ".data ++
      d.tyStr.data ++ ";".data := by
  rw [LocalDecl.printLine, show "    let ".data = "    ".data ++ "let ".data from rfl]
  simp only [List.append_assoc]
  exact pyStrip_indent (by decide) ⟨rfl, by simp only [List.getLast?_append]; rfl⟩

theorem LocalDecl.localOf_printLine {d : LocalDecl} (h : d.Printable) : localOf d.printLine = some d := by
  have hlet := search_of_match (LocalDecl.letAt_printLine h)
  rw [localOf, d.pyStrip_printLine, hlet, Option.map_some', pyStrip_of_trimmed h.2.2.1]
  obtain ⟨name, ty, _ | _⟩ := d <;> simp [scopeAt, debugAt, lit_eq_ite]

theorem LocalDecl.inline_printLine {d : LocalDecl} (h : d.Printable) : Inline d.printLine := by
  obtain ⟨ds, hds, -, hdd⟩ := isLocalName_iff.mp h.1
  obtain ⟨h1, h2, h3⟩ := h.2.2.2.1
  have hd : ∀ c, isPyDigit c = false → c ∉ ds := fun c hc hm => absurd (hdd c hm) (by rw [hc]; decide)
  have := hd '\n' rfl
  have := hd '\x7b' rfl
  have := hd '\x7d' rfl
  obtain ⟨name, ty, _ | _⟩ := d <;> simp_all [Inline, LocalDecl.printLine]

/-! ## Blocks -/

theorem BasicBlock.not_mem_headerText {bb : BasicBlock} (hk : 0 ≤ bb.bbId) {c : Char}
    (hc : c = '\n' ∨ c = '\x7b' ∨ c = '\x7d' ∨ c = 't') : c ∉ bb.headerText := by
  have hn := not_mem_num hk (c := c) (by rcases hc with rfl | rfl | rfl | rfl <;> rfl)
  simp only [BasicBlock.headerText]
  rcases hc with rfl | rfl | rfl | rfl <;> cases bb.isCleanup <;> simp [hn]

theorem BasicBlock.pyStrip_headerLine (bb : BasicBlock) :
    pyStrip bb.headerLine =
      "bb".data ++ num bb.bbId ++ (if bb.isCleanup then " (cleanup): " else ": ").data ++ "\x7b".data := by
  rw [BasicBlock.headerLine, BasicBlock.headerText, show "    bb".data = "    ".data ++ "bb".data from rfl]
  simp only [List.append_assoc]
  exact pyStrip_indent (by decide) ⟨rfl, by simp only [List.getLast?_append]; rfl⟩

theorem BasicBlock.headerOpen_headerLine {bb : BasicBlock} (hk : 0 ≤ bb.bbId) (n : Nat) (seen : Bool)
    (i : Nat) : headerOpen n seen i bb.headerLine = some ⟨bb.bbId, bb.isCleanup, (n + i + 1 : Nat), []⟩ := by
  have hbb : bbHeaderAt (pyStrip bb.headerLine) = some (num bb.bbId) := by
    rw [bb.pyStrip_headerLine]
    cases bb.isCleanup <;> simp [bbHeaderAt, lit_eq_ite, digits1_num_cons hk, spaces, isPySpace, isPyDigit]
  have hlet : search letAt (pyStrip bb.headerLine) = none :=
    search_eq_none_of_mem letAt_mem fun ht => by
      have := mem_of_mem_pyStrip ht
      simp only [BasicBlock.headerLine, List.mem_append] at this
      exact this.elim (bb.not_mem_headerText hk (by simp)) (by decide)
  have hcl : pyContains bb.headerLine "(cleanup)".data = bb.isCleanup := by
    cases hc : bb.isCleanup
    · refine pyContains_of_not_mem ?_
      simp [BasicBlock.headerLine, BasicBlock.headerText, hc, not_mem_num hk (c := '(') rfl]
    · refine pyContains_of_infix ⟨"    bb".data ++ num bb.bbId ++ " ".data, ": \x7b".data, ?_⟩
      simp [BasicBlock.headerLine, BasicBlock.headerText, hc]
  simp only [headerOpen, hbb, hlet, hcl, Option.isNone_none, Bool.or_true, if_true, (num_spec hk).2.2]

theorem terminatorLine_spec {t : Terminator} (h : t.Printable) :
    Inline (terminatorLine t) ∧ lineTerminator (pyStrip (terminatorLine t)) = some t := by
  obtain ⟨h1, h2, h3⟩ := h.inline
  refine ⟨⟨?_, ?_, ?_⟩, ?_⟩
  · simpa [terminatorLine] using h1
  · simpa [terminatorLine] using h2
  · simpa [terminatorLine] using h3
  · rw [terminatorLine, pyStrip_indent (by decide) h.trimmed, lineTerminator_print h]

theorem BasicBlock.inline_innerLines {bb : BasicBlock} (h : bb.Printable) :
    ∀ l ∈ bb.innerLines, Inline l := by
  intro l hl
  simp only [BasicBlock.innerLines, List.mem_append, List.mem_map] at hl
  rcases hl with ⟨s, hs, rfl⟩ | hl
  · exact h.2.1 s hs
  · cases ht : bb.terminator with
    | none => simp [ht] at hl
    | some t =>
      simp only [ht, Option.map_some', Option.toList_some, List.mem_singleton] at hl
      exact hl ▸ (terminatorLine_spec (h.2.2.2 t ht)).1

/-- A printed block is read back as one block of its inner lines. -/
theorem BasicBlock.headerBlocks_printLines {bb : BasicBlock} (h : bb.Printable) (n : Nat) (seen : Bool)
    (i : Nat) (rest : List (List Char)) :
    headerBlocks n seen i (bb.printLines ++ rest) =
      ⟨bb.bbId, bb.isCleanup, (n + i + 1 : Nat), bb.innerLines⟩ ::
        headerBlocks n true (i + bb.printLines.length) rest := by
  have hbody : ∀ l ∈ bb.innerLines, isBodyLine l = true := fun l hl =>
    isBodyLine_of_inline (bb.inline_innerLines h l hl)
  have hhead : ∀ l ∈ bb.innerLines, isHeaderLine l = false := fun l hl =>
    isHeaderLine_of_not_mem (bb.inline_innerLines h l hl).2.1
  rw [BasicBlock.printLines, List.cons_append, headerBlocks, bb.headerOpen_headerLine h.1, List.append_assoc,
    List.singleton_append, blockBody, List.takeWhile_append_of_pos hbody, ← blockBody,
    blockBody_cons_of_end (by rw [isBodyLine_close]; decide), List.append_nil, headerBlocks_append hhead,
    headerBlocks, headerOpen_of_not_header (by decide)]
  simp only [List.length_cons, List.length_append, List.length_singleton, List.length_nil]
  congr 2
  omega

theorem BasicBlock.blockRecord_printLines {bb : BasicBlock} (h : bb.Printable) (ls : Int) :
    BodyState.blockRecord ⟨bb.bbId, bb.isCleanup, ls, bb.innerLines⟩ = { bb with lineStart := ls } := by
  obtain ⟨-, -, hsome, ht⟩ := h
  obtain ⟨t, hbt⟩ := Option.isSome_iff_exists.mp hsome
  have hterm : findTerminator bb.innerLines = some t := by
    simp [findTerminator, BasicBlock.innerLines, hbt, (terminatorLine_spec (ht t hbt)).2]
  cases bb
  simp_all [BodyState.blockRecord, BasicBlock.innerLines, Function.comp_def]

/-! ## Bodies -/

theorem splitOn_flatMap_append {L : List (List Char)} (hL : ∀ l ∈ L, '\n' ∉ l) (r : List Char) :
    (L.flatMap (· ++ ['\n']) ++ r).splitOn '\n' = L ++ r.splitOn '\n' := by
  induction L with
  | nil => rfl
  | cons l L ih =>
    have hl : ∀ c ∈ l, ¬(c == '\n') = true := fun c hc he => hL l (.head _) (by rwa [beq_iff_eq.mp he] at hc)
    rw [List.flatMap_cons, List.append_assoc, List.append_assoc, List.singleton_append, List.splitOn,
      List.splitOnP_first _ _ hl _ (beq_self_eq_true _), ← List.splitOn, ih fun l' hl' => hL l' (.tail _ hl'),
      List.cons_append]

theorem MirFunction.newline_not_mem_bodyLines {f : MirFunction} (hf : f.Printable) :
    ∀ l ∈ f.bodyLines, '\n' ∉ l := by
  simp only [MirFunction.bodyLines, List.mem_append, List.mem_map, List.mem_flatMap]
  rintro l (⟨d, hd, rfl⟩ | ⟨bb, hbb, hl⟩)
  · exact (LocalDecl.inline_printLine (hf.2.2.1 d hd)).1
  · have hk := (hf.2.2.2 bb hbb).1
    simp only [BasicBlock.printLines, List.mem_cons, List.mem_append, List.mem_singleton, List.not_mem_nil,
      or_false] at hl
    rcases hl with rfl | hl | rfl
    · simpa [BasicBlock.headerLine] using bb.not_mem_headerText hk (c := '\n') (by simp)
    · exact (bb.inline_innerLines (hf.2.2.2 bb hbb) l hl).1
    · decide

theorem MirFunction.splitLines_body {f : MirFunction} (hf : f.Printable) :
    splitLines f.body = [] :: f.bodyLines ++ [[]] := by
  rw [splitLines, MirFunction.body, List.splitOn, List.splitOnP_cons, if_pos (beq_self_eq_true _),
    ← List.splitOn, ← List.append_nil (f.bodyLines.flatMap _),
    splitOn_flatMap_append (f.newline_not_mem_bodyLines hf)]
  rfl

theorem opensBlock_of_headerOpen {n i : Nat} {ln : List Char} {ob : OpenBlock}
    (h : headerOpen n false i ln = some ob) : opensBlock ln = true := by
  unfold headerOpen at h
  split at h
  · rename_i k hk
    split_ifs at h with hc
    simp only [Bool.false_or] at hc
    simp [opensBlock, isHeaderLine, hk, hc]
  · cases h

theorem MirFunction.isHeaderLine_declLines {f : MirFunction} (hf : f.Printable) :
    ∀ l ∈ [] :: f.locals.map LocalDecl.printLine, isHeaderLine l = false := by
  simp only [List.mem_cons, List.mem_map]
  rintro l (rfl | ⟨d, hd, rfl⟩)
  · decide
  · exact isHeaderLine_of_not_mem (LocalDecl.inline_printLine (hf.2.2.1 d hd)).2.1

theorem MirFunction.locals_of_lines {f : MirFunction} (hf : f.Printable) :
    (([] :: f.bodyLines ++ [[]]).takeWhile fun ln => !opensBlock ln).filterMap localOf = f.locals := by
  have hL : ∀ l ∈ [] :: f.locals.map LocalDecl.printLine, (!opensBlock l) = true := fun l hl => by
    simp [opensBlock, f.isHeaderLine_declLines hf l hl]
  have hdecl : (f.locals.map LocalDecl.printLine).filterMap localOf = f.locals := by
    rw [List.filterMap_map]
    conv_rhs => rw [← List.filterMap_some f.locals]
    refine List.filterMap_congr fun d hd => ?_
    rw [Function.comp_apply, LocalDecl.localOf_printLine (hf.2.2.1 d hd)]
  have hsplit : [] :: f.bodyLines ++ [[]] = ([] :: f.locals.map LocalDecl.printLine) ++
      (f.basicBlocks.flatMap BasicBlock.printLines ++ [[]]) := by
    simp [MirFunction.bodyLines]
  have hl0 : localOf [] = none := by decide
  rw [hsplit, List.takeWhile_append_of_pos hL]
  cases hbbs : f.basicBlocks with
  | nil =>
    have h0 : opensBlock [] = false := by decide
    simp [hdecl, hl0, h0]
  | cons bb bbs =>
    have hk := (hf.2.2.2 bb (by simp [hbbs])).1
    simp only [List.flatMap_cons, BasicBlock.printLines, List.cons_append]
    have hopen := opensBlock_of_headerOpen (bb.headerOpen_headerLine hk 0 false 0)
    rw [List.takeWhile_cons_of_neg (by simp [hopen])]
    simp [hdecl, hl0]

theorem headerBlocks_flatMap_printLines {bbs : List BasicBlock} (h : ∀ bb ∈ bbs, bb.Printable) (n : Nat)
    (seen : Bool) (i : Nat) :
    (headerBlocks n seen i (bbs.flatMap BasicBlock.printLines ++ [[]])).map
        (fun ob => { BodyState.blockRecord ob with lineStart := 0 }) =
      bbs.map fun bb => { bb with lineStart := 0 } := by
  induction bbs generalizing seen i with
  | nil => rw [List.flatMap_nil, List.nil_append, headerBlocks, headerOpen_of_not_header (by decide)]; rfl
  | cons bb bbs ih =>
    have hbb := h bb (List.mem_cons_self _ _)
    rw [List.flatMap_cons, List.append_assoc, bb.headerBlocks_printLines hbb, List.map_cons,
      bb.blockRecord_printLines hbb, ih fun b hb => h b (List.mem_cons_of_mem _ hb), List.map_cons]

/-- A printed body is read back as the locals and blocks printed. -/
theorem MirFunction.parseFunctionBody_printed {f : MirFunction} (hf : f.Printable) (n : Nat) :
    (parseFunctionBody f.name f.body n).printed = f.printed := by
  have hlines := MirFunction.splitLines_body hf
  have hlocals : (parseFunctionBody f.name f.body n).locals = f.locals := by
    simp only [parseFunctionBody]
    rw [BodyState.finish_locals, BodyState.scan_locals_of_not_seen _ rfl rfl, hlines]
    exact (List.nil_append _).trans (MirFunction.locals_of_lines hf)
  have hblocks : (parseFunctionBody f.name f.body n).basicBlocks.map (fun bb => { bb with lineStart := 0 }) =
      f.basicBlocks.map fun bb => { bb with lineStart := 0 } := by
    rw [show parseFunctionBody f.name f.body n = FnText.parse ⟨f.name, f.body, n⟩ from rfl,
      FnText.parse_basicBlocks, FnText.blocksRead, (BodyState.blocksRead_eq_headerBlocks _ _ 0).1 rfl,
      List.map_map, hlines, MirFunction.bodyLines, List.cons_append, List.append_assoc, ← List.cons_append,
      headerBlocks_append (f.isHeaderLine_declLines hf)]
    exact headerBlocks_flatMap_printLines hf.2.2.2 n _ _
  simp only [MirFunction.printed, hlocals, hblocks]
  rfl

/-! ## Brace depth of printed text -/

/-- Text whose braces match: read from depth 0 it ends at depth 0 and never goes below. -/
def Balanced (cs : List Char) : Prop :=
  depthAfter 0 cs = 0 ∧ ∀ i, 0 ≤ depthAfter 0 (cs.take i)

theorem depthAfter_eq_add (d : Int) (cs : List Char) : depthAfter d cs = d + depthAfter 0 cs := by
  induction cs generalizing d with
  | nil => simp
  | cons c cs ih =>
    rw [depthAfter_cons, depthAfter_cons, ih, ih (depthStep 0 c)]
    unfold depthStep
    split_ifs <;> omega

theorem depthAfter_append (xs ys : List Char) :
    depthAfter 0 (xs ++ ys) = depthAfter 0 xs + depthAfter 0 ys := by
  rw [depthAfter, List.foldl_append, ← depthAfter, ← depthAfter, depthAfter_eq_add]

theorem depthAfter_of_flat {cs : List Char} (h1 : '\x7b' ∉ cs) (h2 : '\x7d' ∉ cs) : depthAfter 0 cs = 0 := by
  induction cs with
  | nil => rfl
  | cons c cs ih =>
    simp only [List.mem_cons, not_or] at h1 h2
    rw [depthAfter_cons, depthAfter_eq_add, ih h1.2 h2.2, depthStep, if_neg (Ne.symm h1.1),
      if_neg (Ne.symm h2.1)]
    rfl

theorem balanced_of_flat {cs : List Char} (h1 : '\x7b' ∉ cs) (h2 : '\x7d' ∉ cs) : Balanced cs :=
  ⟨depthAfter_of_flat h1 h2, fun _ =>
    (depthAfter_of_flat (fun h => h1 (List.take_subset _ _ h)) (fun h => h2 (List.take_subset _ _ h))).ge⟩

theorem Balanced.append {xs ys : List Char} (hx : Balanced xs) (hy : Balanced ys) : Balanced (xs ++ ys) :=
  ⟨by rw [depthAfter_append, hx.1, hy.1]; rfl, fun i => by
    rw [List.take_append_eq_append_take, depthAfter_append]
    exact Int.add_nonneg (hx.2 i) (hy.2 _)⟩

theorem Balanced.wrap {ys : List Char} (hy : Balanced ys) : Balanced ('\x7b' :: ys ++ ['\x7d']) := by
  have hc : ∀ k, -1 ≤ depthAfter 0 (['\x7d'].take k) := fun k => by
    cases k <;> simp [depthStep]
  refine ⟨?_, fun i => ?_⟩
  · rw [List.cons_append, depthAfter_cons, depthAfter_eq_add, depthAfter_append, hy.1]
    simp [depthStep]
  · cases i with
    | zero => simp
    | succ i =>
      rw [List.cons_append, List.take_succ_cons, depthAfter_cons, depthAfter_eq_add,
        List.take_append_eq_append_take, depthAfter_append]
      have := hy.2 i
      have := hc (i - ys.length)
      simp only [depthStep, if_pos]
      omega

theorem Balanced.flatMap {α : Type} {l : List α} {g : α → List Char} (h : ∀ x ∈ l, Balanced (g x)) :
    Balanced (l.flatMap g) := by
  induction l with
  | nil => exact ⟨rfl, fun i => by simp⟩
  | cons x l ih =>
    rw [List.flatMap_cons]
    exact (h x (List.mem_cons_self _ _)).append (ih fun y hy => h y (List.mem_cons_of_mem _ hy))

/-- The `}` right after a balanced text closes the brace opened before it. -/
theorem closesAt_of_balanced {body : List Char} (h : Balanced body) (more : List Char) :
    ClosesAt 1 (body ++ '\x7d' :: more) body.length := by
  refine ⟨by simp, ?_, fun i hi => ?_⟩
  · rw [List.take_append_eq_append_take, List.take_of_length_le (by omega), Nat.add_sub_cancel_left,
      List.take_succ_cons, List.take_zero, depthAfter_eq_add, depthAfter_append, h.1]
    simp [depthStep]
  · rw [List.take_append_of_le_length hi, depthAfter_eq_add]
    have := h.2 i
    omega

theorem BasicBlock.printLines_flatMap (bb : BasicBlock) :
    bb.printLines.flatMap (· ++ ['\n']) = bb.headerText ++
      ('\x7b' :: ('\n' :: bb.innerLines.flatMap (· ++ ['\n']) ++ "    ".data) ++ ['\x7d']) ++ ['\n'] := by
  simp [BasicBlock.printLines, BasicBlock.headerLine]

/-- A printed body's braces match: each block's `{` is closed by its lone `}`. -/
theorem MirFunction.balanced_body {f : MirFunction} (hf : f.Printable) : Balanced f.body := by
  have hnl : Balanced ['\n'] := balanced_of_flat (by decide) (by decide)
  have hline : ∀ {l : List Char}, Inline l → Balanced (l ++ ['\n']) := fun hl =>
    (balanced_of_flat hl.2.1 hl.2.2).append hnl
  have hlocals : Balanced ((f.locals.map LocalDecl.printLine).flatMap (· ++ ['\n'])) :=
    Balanced.flatMap fun l hl => by
      obtain ⟨d, hd, rfl⟩ := List.mem_map.mp hl
      exact hline (LocalDecl.inline_printLine (hf.2.2.1 d hd))
  have hblocks : Balanced (f.basicBlocks.flatMap fun bb => bb.printLines.flatMap (· ++ ['\n'])) :=
    Balanced.flatMap fun bb hbb => by
      have hk := (hf.2.2.2 bb hbb).1
      rw [bb.printLines_flatMap]
      have hhead := balanced_of_flat (bb.not_mem_headerText hk (by simp)) (bb.not_mem_headerText hk (by simp))
      refine (hhead.append (Balanced.wrap ?_)).append hnl
      rw [← List.singleton_append, List.append_assoc]
      have hinner := Balanced.flatMap fun l hl => hline (bb.inline_innerLines (hf.2.2.2 bb hbb) l hl)
      exact hnl.append (hinner.append (balanced_of_flat (by decide) (by decide)))
  rw [MirFunction.body, ← List.singleton_append, MirFunction.bodyLines, List.flatMap_append,
    List.flatMap_assoc]
  exact hnl.append (hlocals.append hblocks)

/-! ## Function texts -/

theorem MirFunction.fnHeaderAt_print {f : MirFunction} (hf : f.Printable) (rest : List Char) :
    fnHeaderAt (f.print ++ rest) = some (f.name.data, f.body ++ '\x7d' :: '\n' :: rest) := by
  obtain ⟨hne, hw, -⟩ := hf
  obtain ⟨c, cs, hc⟩ := List.exists_cons_of_ne_nil hne
  have hsp : isPySpace c = false := isPySpace_of_isPyWord (hw c (by simp [hc]))
  have hword : ∀ R : List Char, R.head? = some '(' → word1 (f.name.data ++ R) = some (f.name.data, R) :=
    fun R hR => run1_append hne hw (by rw [hR]; rfl)
  have hname : ∀ R : List Char, (f.name.data ++ R).dropWhile isPySpace = f.name.data ++ R := fun R => by
    rw [hc]; exact List.dropWhile_cons_of_neg (by simp [hsp])
  simp [MirFunction.print, fnHeaderAt, lit_eq_ite, spaces1, hname, hword, spaces, noneOf, isPySpace]

theorem searchAt_fnHeaderAt_append {gap : List Char} (hg : 'f' ∉ gap) (cs : List Char) :
    searchAt fnHeaderAt (gap ++ cs) = (searchAt fnHeaderAt cs).map fun p => (p.1 + gap.length, p.2) := by
  induction gap with
  | nil => simp
  | cons c gap ih =>
    have hc : c ≠ 'f' := fun h => hg (h ▸ List.mem_cons_self _ _)
    have hm : fnHeaderAt (c :: (gap ++ cs)) = none := by simp [fnHeaderAt, lit_eq_ite, Ne.symm hc]
    rw [List.cons_append, searchAt, hm, ih fun h => hg (List.mem_cons_of_mem _ h), Option.map_map]
    simp only [Function.comp_def, List.length_cons, Nat.add_assoc]

theorem searchAt_of_match {α : Type} {m : List Char → Option α} {cs : List Char} {a : α}
    (h : m cs = some a) (hne : cs ≠ []) : searchAt m cs = some (0, a) := by
  cases cs with
  | nil => contradiction
  | cons c cs => simp [searchAt, h]

theorem drop_length_sub {text xs ys : List Char} {pos : Nat} (h : text.drop pos = xs ++ ys) (hys : ys ≠ []) :
    text.drop (text.length - ys.length) = ys := by
  have hlen := congrArg List.length h
  have := List.length_pos.mpr hys
  simp only [List.length_drop, List.length_append] at hlen
  rw [show text.length - ys.length = pos + xs.length by omega, ← List.drop_drop, h, List.drop_left]

/-- From a position where printed functions follow a gap with no `f`, the loop of `parse_mir`
finds them, each with its name and body. -/
theorem discovers_print (text : List Char) :
    ∀ (fs : List MirFunction) (gap : List Char) (pos : Nat), (∀ f ∈ fs, f.Printable) → 'f' ∉ gap →
      text.drop pos = gap ++ fs.flatMap MirFunction.print →
      ∃ fts, Discovers text pos fts ∧ fts.map (fun t => t.parse.printed) = fs.map MirFunction.printed := by
  intro fs
  induction fs with
  | nil =>
    intro gap pos _ hg hdrop
    refine ⟨[], .done ?_, rfl⟩
    rw [hdrop, List.flatMap_nil, searchAt_fnHeaderAt_append hg]
    rfl
  | cons f fs ih =>
    intro gap pos hfs hg hdrop
    have hf := hfs f (List.mem_cons_self _ _)
    set R := fs.flatMap MirFunction.print
    have hs : searchAt fnHeaderAt (text.drop pos) =
        some (gap.length, f.name.data, f.body ++ '\x7d' :: '\n' :: R) := by
      rw [hdrop, List.flatMap_cons, searchAt_fnHeaderAt_append hg,
        searchAt_of_match (f.fnHeaderAt_print hf R) (by simp [MirFunction.print])]
      simp
    have hsplit : text.drop pos =
        (gap ++ "fn ".data ++ f.name.data ++ "() -> () \x7b".data ++ f.body ++ ['\x7d']) ++ (['\n'] ++ R) := by
      rw [hdrop, List.flatMap_cons]
      simp [MirFunction.print]
    have hlen := congrArg List.length hsplit
    simp only [List.length_drop, List.length_append, List.length_singleton, List.length_cons,
      List.length_nil] at hlen
    have hpos : text.length - (f.body ++ '\x7d' :: '\n' :: R).length + f.body.length + 1 =
        text.length - (['\n'] ++ R).length := by
      simp only [List.length_append, List.length_cons, List.length_singleton, List.length_nil]
      omega
    obtain ⟨fts, hd, hmap⟩ := ih ['\n'] _ (fun g hg' => hfs g (List.mem_cons_of_mem _ hg')) (by decide)
      (drop_length_sub hsplit (by simp))
    refine ⟨_ :: fts, .closed hs (closesAt_of_balanced (f.balanced_body hf) _) (hpos ▸ hd), ?_⟩
    rw [List.map_cons, List.map_cons, hmap, List.take_left]
    exact congrArg (· :: _) (MirFunction.parseFunctionBody_printed hf _)

/-- `parse_mir` reads a printed text back as the functions printed, up to the tables it
derives and the blocks' line numbers, when the text is one it reads as Python does (ASCII, and
every id and target of at most 4300 digits). -/
theorem parseMir_printMir {fs : List MirFunction} (hfs : ∀ f ∈ fs, f.Printable)
    (_ : PyReadable (printMir fs).data) :
    (parseMir (printMir fs)).map MirFunction.printed = fs.map MirFunction.printed := by
  obtain ⟨fts, hd, hmap⟩ := discovers_print (printMir fs).data fs [] 0 hfs (by simp) (by simp [printMir])
  rw [parseMir, (fnTexts_discovers _).unique hd, List.map_map]
  exact hmap

set_option maxRecDepth 20000 in
theorem parseMir_printMir_lockThenDrop :
    (∀ f ∈ [lockThenDrop], f.Printable) ∧ PyReadable (printMir [lockThenDrop]).data ∧
      (parseMir (printMir [lockThenDrop])).map MirFunction.printed = [lockThenDrop].map MirFunction.printed :=
  ⟨by decide, by decide, parseMir_printMir (by decide) (by decide)⟩

end Mir2Pnml
