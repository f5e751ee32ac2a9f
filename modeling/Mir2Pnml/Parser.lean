import Mir2Pnml.Patterns
import Mir2Pnml.MirModel

/-! # The MIR parser

`mir_parser.py`. `_parse_function_body` reads a body line by line. Outside a block the outer
loop skips `scope` and `debug` lines, takes `let` lines as locals until the first block, and
opens a block at a `bbN: {` header. Inside a block the inner loop takes every line as one of
the block's lines, entering `_a = &_b;` assignments in `ref_to_base` as it reads them, until a
header (which the outer loop then reads again) or a lone `}` (which it consumes) ends the
block. Ending a block finds the terminator on the last of its lines that holds one, binds the
guard of a lock call to its mutex, passes a binding on through `unwrap` and `expect` calls,
and records the block. `parse_mir` finds each `fn` header, matches braces to the end of the
body, and parses the body. Nothing in the body parser raises on the modelled inputs, so the
`try` around it never fires and `parse_mir` returns a list for every text; the model reads
every run of digits, where Python's `int()` refuses more than 4300 of them.
-/
namespace Mir2Pnml

open Pattern

/-! ## Terminators and guard binding -/

/-- The terminator a stripped line holds, tried in the parser's order: goto, return, drop,
switch, call. -/
def lineTerminator (bs : List Char) : Option Terminator :=
  match search gotoAt bs with
  | some t => some (.goto (digitsValue t))
  | none =>
    match search returnAt bs with
    | some _ => some .return
    | none =>
      match search dropAt bs with
      | some (l, r, u) =>
        some (.drop (String.mk (pyStrip l)) (digitsValue r) (u.map fun d => (digitsValue d : Int)))
      | none =>
        match search switchAt bs with
        | some ts =>
          some (.switchInt ((findAllBb (ts.length + 1) ts).map fun d => (digitsValue d : Int)))
        | none =>
          (search callAt bs).map fun c =>
            .call (c.lhs.map String.mk) (String.mk (pyStrip c.callee)) (String.mk (pyStrip c.args))
              (digitsValue c.ret) (c.unwind.map fun d => (digitsValue d : Int))

/-- `for bl in reversed(block_lines)`: the terminator of the last line that holds one. -/
def findTerminator (blockLines : List (List Char)) : Option Terminator :=
  blockLines.reverse.findSome? fun bl => lineTerminator (pyStrip bl)

/-- The entry a call found as a terminator writes into `guard_to_mutex_key`: a lock call binds
its LHS to the mutex its first local argument resolves to through `ref_to_base`, and an
`unwrap` or `expect` call passes the binding of its first local argument on to its LHS. -/
def guardBinding (refToBase guards : List (String × String)) :
    Terminator → Option (String × String)
  | .call lhs callee args _ _ =>
    if isMutexLockCallee callee then
      match truthy (extractFirstLocal args), truthy lhs with
      | some a, some g => some (g, resolveMutexKey a refToBase)
      | _, _ => none
    else if isUnwrapCallee callee then
      match truthy lhs, truthy (extractFirstLocal args) with
      | some g, some a => (guards.lookup a).map fun k => (g, k)
      | _, _ => none
    else none
  | _ => none

/-- The guard binding made when a call is found as a terminator. -/
def bindGuard (refToBase guards : List (String × String)) (t : Terminator) :
    List (String × String) :=
  match guardBinding refToBase guards t with
  | some (g, k) => dictSet guards g k
  | none => guards

/-- The assignment `_a = &_b;` a block line holds, as `(a, b)`. -/
def refAssignment (bl : List Char) : Option (String × String) :=
  (search refAt (pyStrip bl)).map fun p => (String.mk p.1, String.mk p.2)

/-- `ref_to_base[a] = b` for a block line holding `_a = &_b;`. -/
def refLine (refToBase : List (String × String)) (bl : List Char) : List (String × String) :=
  match refAssignment bl with
  | some (a, b) => dictSet refToBase a b
  | none => refToBase

/-! ## `_parse_function_body` -/

/-- A block whose lines the inner loop is reading: its header's id and cleanup mark, its
line number, and the lines read so far. -/
structure OpenBlock where
  bbId : Int
  isCleanup : Bool
  lineStart : Int
  lines : List (List Char)
  deriving DecidableEq, Repr

/-- The locals of `_parse_function_body`, with the block the inner loop is in. -/
structure BodyState where
  locals : List LocalDecl
  refToBase : List (String × String)
  basicBlocks : List BasicBlock
  guardToMutexKey : List (String × String)
  seenBb : Bool
  current : Option OpenBlock
  deriving DecidableEq, Repr

namespace BodyState

def init : BodyState := ⟨[], [], [], [], false, none⟩

/-- The record of a block: `statements` lose the last line whenever a terminator was found. -/
def blockRecord (ob : OpenBlock) : BasicBlock :=
  let term := findTerminator ob.lines
  ⟨ob.bbId, (if term.isSome && !ob.lines.isEmpty then ob.lines.dropLast else ob.lines).map String.mk,
    term, ob.isCleanup, ob.lineStart⟩

/-- The end of the inner loop: bind the terminator's guard and append the block. -/
def closeBlock (st : BodyState) (ob : OpenBlock) : BodyState :=
  { st with
    basicBlocks := st.basicBlocks ++ [blockRecord ob]
    guardToMutexKey := ((findTerminator ob.lines).map
      (bindGuard st.refToBase st.guardToMutexKey)).getD st.guardToMutexKey
    current := none }

/-- One turn of the outer loop on line `i`. -/
def outer (fnStartLine : Nat) (st : BodyState) (i : Nat) (ln : List Char) : BodyState :=
  let s := pyStrip ln
  if scopeAt s || debugAt s then st
  else
    match (if st.seenBb then none else search letAt s) with
    | some c => { st with locals := st.locals ++ [⟨String.mk c.name, String.mk (pyStrip c.ty), c.isMut⟩] }
    | none =>
      match bbHeaderAt s with
      | some k =>
        { st with
          seenBb := true
          current := some ⟨digitsValue k, pyContains ln "(cleanup)".data, (fnStartLine + i + 1 : Nat), []⟩ }
      | none => st

/-- One line `i`: a turn of the inner loop inside a block, of the outer loop otherwise. -/
def step (fnStartLine : Nat) (st : BodyState) (i : Nat) (ln : List Char) : BodyState :=
  match st.current with
  | none => st.outer fnStartLine i ln
  | some ob =>
    if (bbHeaderAt (pyStrip ln)).isSome then (st.closeBlock ob).outer fnStartLine i ln
    else if pyStrip ln = "\x7d".data then st.closeBlock ob
    else { st with current := some { ob with lines := ob.lines ++ [ln] }, refToBase := refLine st.refToBase ln }

/-- Lines `i, i + 1, ...`. -/
def scan (fnStartLine : Nat) : BodyState → Nat → List (List Char) → BodyState
  | st, _, [] => st
  | st, i, ln :: lns => scan fnStartLine (st.step fnStartLine i ln) (i + 1) lns

/-- When the lines run out inside a block, the inner loop ends there. -/
def finish (st : BodyState) : BodyState :=
  match st.current with
  | some ob => st.closeBlock ob
  | none => st

end BodyState

/-- `_parse_function_body`. -/
def parseFunctionBody (fnName : String) (body : List Char) (fnStartLine : Nat) : MirFunction :=
  let st := (BodyState.init.scan fnStartLine 0 (splitLines body)).finish
  ⟨fnName, st.locals, st.basicBlocks, st.guardToMutexKey, st.refToBase⟩

/-! ## `parse_mir` -/

/-- The brace-matching loop from depth `depth`: how many characters it reads. -/
def braceSpan : Nat → List Char → Nat
  | _, [] => 0
  | depth, c :: cs =>
    let depth := if c = '{' then depth + 1 else if c = '}' then depth - 1 else depth
    if depth = 0 then 1 else braceSpan depth cs + 1

/-- A function `parse_mir` finds: its name, the body between its braces, and the line of its
header. -/
structure FnText where
  name : String
  body : List Char
  startLine : Nat
  deriving DecidableEq, Repr

/-- The `while True` loop of `parse_mir` from position `pos` of `text`. Each turn moves past a
header, so `text.length + 1` turns are enough (`fnTextsFrom_discovers`). -/
def fnTextsFrom (text : List Char) : Nat → Nat → List FnText
  | 0, _ => []
  | fuel + 1, pos =>
    match searchAt fnHeaderAt (text.drop pos) with
    | none => []
    | some (k, name, rest) =>
      let n := braceSpan 1 rest
      ⟨String.mk name, rest.take (n - 1), (text.take (pos + k)).count '\n' + 1⟩ ::
        fnTextsFrom text fuel (text.length - rest.length + n)

def fnTexts (text : List Char) : List FnText := fnTextsFrom text (text.length + 1) 0

def FnText.parse (t : FnText) : MirFunction := parseFunctionBody t.name t.body t.startLine

/-- `parse_mir`: the body parser's result does not steer the loop, so this is the loop's
bodies, each parsed. -/
def parseMir (text : String) : List MirFunction := (fnTexts text.data).map FnText.parse

/-! ## What a line and a block end write -/

/-- The LHS of a call terminator. -/
def Terminator.callLhs : Terminator → Option String
  | .call lhs _ _ _ _ => lhs
  | _ => none

section Bindings
variable {refs guards d : List (String × String)}

theorem truthy_some {s : String} (h : s ≠ "") : truthy (some s) = some s :=
  truthy_eq_some.mpr ⟨rfl, h⟩

theorem truthy_extractFirstLocal {args a : String} (h : extractFirstLocal args = some a) :
    truthy (extractFirstLocal args) = some a :=
  truthy_eq_some.mpr ⟨h, extractFirstLocal_ne_empty h⟩

/-- What a terminator's guard binding can be: a lock call binding its LHS to the resolution
of its first local argument, or an unwrap or expect call passing on the binding of its first
local argument. -/
theorem guardBinding_cases {t : Terminator} {g k : String}
    (h : guardBinding refs guards t = some (g, k)) :
    ∃ callee args r u a, t = .call (some g) callee args r u ∧ g ≠ "" ∧ extractFirstLocal args = some a ∧
      ((isMutexLockCallee callee = true ∧ k = resolveMutexKey a refs) ∨
        (isMutexLockCallee callee = false ∧ isUnwrapCallee callee = true ∧ guards.lookup a = some k)) := by
  cases t with
  | call lhs callee args r u =>
    simp only [guardBinding] at h
    split_ifs at h with hl hu
    · split at h
      · rename_i a g' ha hg
        obtain ⟨rfl, rfl⟩ := Prod.mk.inj (Option.some.inj h)
        obtain ⟨rfl, hne⟩ := truthy_eq_some.mp hg
        exact ⟨callee, args, r, u, a, rfl, hne, (truthy_eq_some.mp ha).1, .inl ⟨hl, rfl⟩⟩
      · cases h
    · split at h
      · rename_i g' a hg ha
        obtain ⟨k', hk, he⟩ := Option.map_eq_some'.mp h
        obtain ⟨rfl, rfl⟩ := Prod.mk.inj he
        obtain ⟨rfl, hne⟩ := truthy_eq_some.mp hg
        exact ⟨callee, args, r, u, a, rfl, hne, (truthy_eq_some.mp ha).1,
          .inr ⟨Bool.eq_false_iff.mpr hl, hu, hk⟩⟩
      · cases h
  | _ => cases h

theorem guardBinding_lock {g callee args a : String} {r : Int} {u : Option Int} (hg : g ≠ "")
    (hl : isMutexLockCallee callee = true) (ha : extractFirstLocal args = some a) :
    guardBinding refs guards (.call (some g) callee args r u) = some (g, resolveMutexKey a refs) := by
  simp only [guardBinding, hl, if_true, truthy_extractFirstLocal ha, truthy_some hg]

theorem guardBinding_unwrap {g callee args a k : String} {r : Int} {u : Option Int} (hg : g ≠ "")
    (hl : isMutexLockCallee callee = false) (hu : isUnwrapCallee callee = true)
    (ha : extractFirstLocal args = some a) (hk : guards.lookup a = some k) :
    guardBinding refs guards (.call (some g) callee args r u) = some (g, k) := by
  simp only [guardBinding, hl, hu, Bool.false_eq_true, if_false, if_true,
    truthy_extractFirstLocal ha, truthy_some hg, hk, Option.map_some']

theorem lookup_bindGuard_of_binding {t : Terminator} {g k : String}
    (h : guardBinding refs guards t = some (g, k)) : (bindGuard refs guards t).lookup g = some k := by
  rw [bindGuard, h, lookup_dictSet, if_pos rfl]

theorem lookup_bindGuard_of_ne {t : Terminator} {x : String} (h : t.callLhs ≠ some x) :
    (bindGuard refs guards t).lookup x = guards.lookup x := by
  unfold bindGuard
  split
  · rename_i g k hb
    obtain ⟨_, _, _, _, _, rfl, -⟩ := guardBinding_cases hb
    rw [lookup_dictSet, if_neg fun hx : x = g => h (by rw [hx]; rfl)]
  · rfl

theorem lookup_bindGuard_cases {t : Terminator} {x k : String}
    (h : (bindGuard refs guards t).lookup x = some k) :
    guards.lookup x = some k ∨ guardBinding refs guards t = some (x, k) := by
  unfold bindGuard at h
  split at h
  · rename_i g k' hb
    rw [lookup_dictSet] at h
    split_ifs at h with hx
    · subst hx
      exact .inr (Option.some.inj h ▸ hb)
    · exact .inl h
  · exact .inl h

theorem lookup_refLine_of_ne {bl : List Char} {x : String}
    (h : ∀ b, refAssignment bl ≠ some (x, b)) : (refLine d bl).lookup x = d.lookup x := by
  unfold refLine
  split
  · rename_i a b hab
    rw [lookup_dictSet, if_neg]
    rintro rfl
    exact h b hab
  · rfl

theorem lookup_refLine_of_eq {bl : List Char} {x b : String}
    (h : refAssignment bl = some (x, b)) : (refLine d bl).lookup x = some b := by
  rw [refLine, h, lookup_dictSet, if_pos rfl]

theorem lookup_foldl_refLine_of_ne {L : List (List Char)} {x : String}
    (h : ∀ bl ∈ L, ∀ b, refAssignment bl ≠ some (x, b)) :
    (L.foldl refLine d).lookup x = d.lookup x := by
  induction L generalizing d with
  | nil => rfl
  | cons bl L ih =>
    rw [List.foldl_cons, ih fun bl' h' => h bl' (List.mem_cons_of_mem _ h'),
      lookup_refLine_of_ne (h bl (List.mem_cons_self _ _))]

/-- Every entry of `ref_to_base` was there before, or was written by one of the lines. -/
theorem lookup_foldl_refLine_cases {L : List (List Char)} {x b : String}
    (h : (L.foldl refLine d).lookup x = some b) :
    d.lookup x = some b ∨ ∃ bl ∈ L, refAssignment bl = some (x, b) := by
  induction L generalizing d with
  | nil => exact .inl h
  | cons bl L ih =>
    rcases ih h with h | ⟨bl', hbl', h'⟩
    · by_cases hx : ∃ b', refAssignment bl = some (x, b')
      · obtain ⟨b', hb'⟩ := hx
        rw [lookup_refLine_of_eq hb', Option.some.injEq] at h
        exact .inr ⟨bl, List.mem_cons_self _ _, h ▸ hb'⟩
      · exact .inl ((lookup_refLine_of_ne fun b' hb' => hx ⟨b', hb'⟩).symm.trans h)
    · exact .inr ⟨bl', List.mem_cons_of_mem _ hbl', h'⟩

/-- When every line that assigns `x` assigns it `b`, and one does, `x` ends up bound to `b`. -/
theorem lookup_foldl_refLine_of_unique {L : List (List Char)} {bl : List Char} {x b : String}
    (hmem : bl ∈ L) (hbl : refAssignment bl = some (x, b))
    (huniq : ∀ bl' ∈ L, ∀ b', refAssignment bl' = some (x, b') → b' = b) :
    (L.foldl refLine d).lookup x = some b := by
  induction L generalizing d bl with
  | nil => cases hmem
  | cons bl₀ L ih =>
    have huniq' := fun bl' h' => huniq bl' (List.mem_cons_of_mem _ h')
    rw [List.foldl_cons]
    by_cases hL : ∃ bl' ∈ L, ∃ b', refAssignment bl' = some (x, b')
    · obtain ⟨bl', hbl', b', hb'⟩ := hL
      exact ih hbl' (huniq bl' (List.mem_cons_of_mem _ hbl') b' hb' ▸ hb') huniq'
    · push_neg at hL
      rw [lookup_foldl_refLine_of_ne hL]
      rcases List.mem_cons.mp hmem with rfl | hmem
      · exact lookup_refLine_of_eq hbl
      · exact absurd hbl (hL bl hmem b)

end Bindings

/-! ## Facts of the scan -/

theorem lineTerminator_callLhs {bs : List Char} {t : Terminator} {g : String}
    (h : lineTerminator bs = some t) (hg : t.callLhs = some g) : g ≠ "" := by
  unfold lineTerminator at h
  repeat' split at h
  all_goals first
    | (obtain ⟨c, hc, rfl⟩ := Option.map_eq_some'.mp h
       obtain ⟨w, hw, rfl⟩ := Option.map_eq_some'.mp hg
       obtain ⟨_, _, hc⟩ := search_spec hc
       exact fun he => callAt_lhs_ne_nil hc hw (congrArg String.data he))
    | (cases h; cases hg)

theorem findTerminator_spec {L : List (List Char)} {t : Terminator} (h : findTerminator L = some t) :
    ∃ bl ∈ L, lineTerminator (pyStrip bl) = some t := by
  obtain ⟨bl, hbl, h⟩ := List.exists_of_findSome?_eq_some h
  exact ⟨bl, List.mem_reverse.mp hbl, h⟩

/-- The terminator of a block is the one of the last of its lines that holds one, and none
when no line holds one. -/
theorem findTerminator_cases (L : List (List Char)) :
    (findTerminator L = none ∧ ∀ l ∈ L, lineTerminator (pyStrip l) = none) ∨
      ∃ pre l post t, L = pre ++ l :: post ∧ findTerminator L = some t ∧
        lineTerminator (pyStrip l) = some t ∧ ∀ l' ∈ post, lineTerminator (pyStrip l') = none := by
  induction L using List.reverseRecOn with
  | nil => exact .inl ⟨rfl, by simp⟩
  | append_singleton L x ih =>
    have hrev : findTerminator (L ++ [x]) =
        (lineTerminator (pyStrip x)).or (findTerminator L) := by
      simp only [findTerminator, List.reverse_append, List.reverse_singleton, List.singleton_append,
        List.findSome?_cons]
      cases lineTerminator (pyStrip x) <;> rfl
    cases hx : lineTerminator (pyStrip x) with
    | some t => exact .inr ⟨L, x, [], t, rfl, by rw [hrev, hx]; rfl, hx, by simp⟩
    | none =>
      rw [hrev, hx, Option.none_or]
      rcases ih with ⟨hn, hall⟩ | ⟨pre, l, post, t, rfl, ht, hl, hpost⟩
      · refine .inl ⟨hn, fun l hl => ?_⟩
        rcases List.mem_append.mp hl with hl | hl
        exacts [hall l hl, List.mem_singleton.mp hl ▸ hx]
      · refine .inr ⟨pre, l, post ++ [x], t, by simp, ht, hl, fun l' hl' => ?_⟩
        rcases List.mem_append.mp hl' with hl' | hl'
        exacts [hpost l' hl', List.mem_singleton.mp hl' ▸ hx]

theorem refAssignment_ne_empty {bl : List Char} {a b : String} (h : refAssignment bl = some (a, b)) :
    a ≠ "" ∧ b ≠ "" := by
  obtain ⟨⟨a', b'⟩, hab, he⟩ := Option.map_eq_some'.mp h
  obtain ⟨rfl, rfl⟩ := Prod.mk.inj he
  obtain ⟨_, _, hab⟩ := Pattern.search_spec hab
  obtain ⟨ha, hb⟩ := Pattern.refAt_ne_nil hab
  exact ⟨fun he => ha (congrArg String.data he), fun he => hb (congrArg String.data he)⟩

theorem mem_parseMir {text : String} {f : MirFunction} :
    f ∈ parseMir text ↔ ∃ t ∈ fnTexts text.data, t.parse = f :=
  List.mem_map

end Mir2Pnml
