import Mir2Pnml.Offers

/-! # The PNML writer

`write_pnml` builds an ElementTree tree `pnml/net/page` whose page holds one `place` element
per place, then one `transition` element per transition, then one `arc` element per arc, runs
`_indent` over it and serialises it. The serialisation is left out; the tree it is given is
`writePnml`. An element is its tag, its attributes in insertion order, its `text` and `tail`,
and its children.

`_indent` only writes whitespace-only text into elements that have children and whitespace-only
tails, so with that layout ignored the tree is the one the loops built (`dropBlanks_indent`); a
reader that ignores it recovers every place, transition and arc, markings and weights through
their PNML defaults. Ignoring every whitespace-only text instead, that of the leaf `text`
elements included, loses a place or transition name that is empty or whitespace-only.
-/
namespace Mir2Pnml

/-- An `xml.etree.ElementTree.Element`. -/
structure Element where
  tag : String
  attrib : List (String × String)
  text : Option String
  tail : Option String
  children : List Element
  deriving Repr

/-! ## `write_pnml` -/

/-- `PNML_NS`. -/
def pnmlNs : String := "http://www.pnml.org/version-2009/grammar/ptnet"

/-- A `name`, `initialMarking` or `inscription` element: a `text` child holding `s`. -/
def labelled (tag s : String) : Element :=
  ⟨tag, [], none, none, [⟨"text", [], some s, none, []⟩]⟩

/-- The `toolspecific` element `_add_toolspecific` appends, one child per annotation. -/
def toolspecific (annotations : List (String × String)) : Element :=
  ⟨"toolspecific", [("tool", "mir2pnml_py"), ("version", "0.1")], none, none,
    annotations.map fun (k, v) => ⟨k, [], some v, none, []⟩⟩

/-- `if annotations: _add_toolspecific(elem, annotations)`, on the children of `elem`. -/
def addToolspecific (annotations : List (String × String)) (children : List Element) : List Element :=
  if annotations.isEmpty then children else children ++ [toolspecific annotations]

def placeElement (p : Place) : Element :=
  ⟨"place", [("id", p.id)], none, none, addToolspecific p.annotations
    (labelled "name" p.name ::
      if 0 < p.initTokens then [labelled "initialMarking" (toString p.initTokens)] else [])⟩

def transitionElement (t : Transition) : Element :=
  ⟨"transition", [("id", t.id)], none, none, addToolspecific t.annotations [labelled "name" t.name]⟩

def arcElement (a : Arc) : Element :=
  ⟨"arc", [("id", a.id), ("source", a.source), ("target", a.target)], none, none,
    if a.weight ≠ 1 then [labelled "inscription" (toString a.weight)] else []⟩

@[simp] theorem placeElement_tag (p : Place) : (placeElement p).tag = "place" := rfl
@[simp] theorem transitionElement_tag (t : Transition) : (transitionElement t).tag = "transition" := rfl
@[simp] theorem arcElement_tag (a : Arc) : (arcElement a).tag = "arc" := rfl

/-- The tree `write_pnml` builds before `_indent`. -/
def pnmlTree (net : PetriNet) : Element :=
  ⟨"pnml", [], none, none, [⟨"net", [("id", "mir2pnml_net"), ("type", pnmlNs)], none, none,
    [⟨"page", [("id", "page0")], none, none,
      net.places.map placeElement ++ net.transitions.map transitionElement ++
        net.arcs.map arcElement⟩]⟩]⟩

/-! ## `_indent` -/

/-- `not s or not s.strip()` on an `Optional[str]`. -/
def blank : Option String → Bool
  | none => true
  | some s => (pyStrip s.data).isEmpty

/-- `"\n" + level * "  "`. -/
def indentStr (level : Nat) : String := ⟨'\n' :: List.replicate (2 * level) ' '⟩

/-- The last child's tail after the loop: the parent's indentation if it is blank. -/
def lastTail (level : Nat) (child : Element) : Element :=
  if blank child.tail then { child with tail := some (indentStr level) } else child

mutual
/-- `_indent(elem, level)`. -/
def indent (level : Nat) : Element → Element
  | ⟨tag, attrib, text, tail, []⟩ =>
    ⟨tag, attrib, text, if level != 0 && blank tail then some (indentStr level) else tail, []⟩
  | ⟨tag, attrib, text, tail, c :: cs⟩ =>
    ⟨tag, attrib, if blank text then some (indentStr level ++ "  ") else text,
      if blank tail then some (indentStr level) else tail, indentChildren level (c :: cs)⟩

/-- The loop of `_indent` over the children, and the fix of the last child's tail. -/
def indentChildren (level : Nat) : List Element → List Element
  | [] => []
  | [c] => [lastTail level (indent (level + 1) c)]
  | c :: cs => indent (level + 1) c :: indentChildren level cs
end

/-- The tree `write_pnml` serialises. -/
def writePnml (net : PetriNet) : Element := indent 0 (pnmlTree net)

/-! ## Layout whitespace -/

def dropBlank (o : Option String) : Option String := if blank o then none else o

mutual
/-- Forget whitespace-only tails and the whitespace-only text of elements with children, and,
when `leaves` is set, that of leaf elements too. -/
def dropBlanks (leaves : Bool) : Element → Element
  | ⟨tag, attrib, text, tail, cs⟩ =>
    ⟨tag, attrib, if leaves || !cs.isEmpty then dropBlank text else text, dropBlank tail,
      dropBlanksChildren leaves cs⟩

def dropBlanksChildren (leaves : Bool) : List Element → List Element
  | [] => []
  | c :: cs => dropBlanks leaves c :: dropBlanksChildren leaves cs
end

section Layout
variable {leaves : Bool}

theorem blank_some_of_spaces {s : String} (h : ∀ c ∈ s.data, isPySpace c = true) :
    blank (some s) = true := by
  rw [blank, pyStrip, List.dropWhile_eq_nil_iff.mpr h]
  rfl

theorem blank_indentStr (level : Nat) : blank (some (indentStr level)) = true :=
  blank_some_of_spaces fun c hc => by
    rcases List.mem_cons.mp hc with rfl | hc
    · rfl
    · rw [List.eq_of_mem_replicate hc]; rfl

theorem blank_indentStr_append (level : Nat) : blank (some (indentStr level ++ "  ")) = true :=
  blank_some_of_spaces fun c hc => by
    rcases List.mem_append.mp hc with hc | hc
    · rcases List.mem_cons.mp hc with rfl | hc
      · rfl
      · rw [List.eq_of_mem_replicate hc]; rfl
    · simp only [List.mem_cons, List.mem_singleton, List.not_mem_nil, or_false] at hc
      rcases hc with rfl | rfl <;> rfl

theorem dropBlank_ite {c : Bool} {o o' : Option String} (h : blank o' = true)
    (hc : c = true → blank o = true) : dropBlank (if c then o' else o) = dropBlank o := by
  cases c
  · rfl
  · simp [dropBlank, h, hc rfl]

theorem indentChildren_isEmpty (level : Nat) (cs : List Element) :
    (indentChildren level cs).isEmpty = cs.isEmpty := by
  match cs with
  | [] => rfl
  | [_] => rfl
  | _ :: _ :: _ => rfl

theorem dropBlanks_lastTail (level : Nat) (e : Element) :
    dropBlanks leaves (lastTail level e) = dropBlanks leaves e := by
  obtain ⟨tag, attrib, text, tail, cs⟩ := e
  unfold lastTail
  split
  · rename_i h
    simp only [dropBlanks, dropBlank, h, blank_indentStr, if_true]
  · rfl

mutual
/-- `_indent` changes only layout whitespace. -/
theorem dropBlanks_indent (level : Nat) :
    (e : Element) → dropBlanks leaves (indent level e) = dropBlanks leaves e
  | ⟨tag, attrib, text, tail, []⟩ => by
    simp only [indent, dropBlanks]
    rw [dropBlank_ite (blank_indentStr level) fun h => by simp_all]
  | ⟨tag, attrib, text, tail, c :: cs⟩ => by
    simp only [indent, dropBlanks, indentChildren_isEmpty, List.isEmpty_cons, Bool.not_false,
      Bool.or_true, if_true]
    rw [dropBlank_ite (blank_indentStr_append level) id, dropBlank_ite (blank_indentStr level) id,
      dropBlanksChildren_indentChildren level (c :: cs)]

theorem dropBlanksChildren_indentChildren (level : Nat) :
    (cs : List Element) →
      dropBlanksChildren leaves (indentChildren level cs) = dropBlanksChildren leaves cs
  | [] => rfl
  | [c] => by
    simp only [indentChildren, dropBlanksChildren, dropBlanks_lastTail, dropBlanks_indent (level + 1) c]
  | c :: d :: cs => by
    simp only [indentChildren, dropBlanksChildren]
    rw [dropBlanks_indent (level + 1) c, dropBlanksChildren_indentChildren level (d :: cs),
      dropBlanksChildren]
end

/-! ## The tree the loops build -/

theorem dropBlanksChildren_eq_map (leaves : Bool) (cs : List Element) :
    dropBlanksChildren leaves cs = cs.map (dropBlanks leaves) := by
  induction cs with
  | nil => rfl
  | cons c cs ih => rw [dropBlanksChildren, ih, List.map_cons]

/-- An element with no text and no tail over children that carry no layout carries none. -/
theorem dropBlanks_node {tag : String} {attrib : List (String × String)} {cs : List Element}
    (h : ∀ c ∈ cs, dropBlanks false c = c) :
    dropBlanks false ⟨tag, attrib, none, none, cs⟩ = ⟨tag, attrib, none, none, cs⟩ := by
  simp only [dropBlanks, dropBlank, blank, if_true, ite_self, dropBlanksChildren_eq_map,
    List.map_congr_left h, List.map_id']

@[simp] theorem dropBlanks_labelled (tag s : String) :
    dropBlanks false (labelled tag s) = labelled tag s :=
  rfl

theorem dropBlanks_addToolspecific (annotations : List (String × String)) {cs : List Element}
    (h : ∀ c ∈ cs, dropBlanks false c = c) :
    ∀ c ∈ addToolspecific annotations cs, dropBlanks false c = c := by
  have hts : dropBlanks false (toolspecific annotations) = toolspecific annotations :=
    dropBlanks_node fun c hc => by
      obtain ⟨⟨k, v⟩, -, rfl⟩ := List.mem_map.mp hc
      rfl
  unfold addToolspecific
  split
  · exact h
  · intro c hc
    rcases List.mem_append.mp hc with hc | hc
    exacts [h c hc, List.mem_singleton.mp hc ▸ hts]

/-- With layout ignored, the tree `write_pnml` serialises is the one its loops build. -/
theorem dropBlanks_writePnml (net : PetriNet) : dropBlanks false (writePnml net) = pnmlTree net := by
  have hplace : ∀ p : Place, dropBlanks false (placeElement p) = placeElement p := fun p =>
    dropBlanks_node <| dropBlanks_addToolspecific _ fun c hc => by
      simp only [List.mem_cons] at hc
      split_ifs at hc
      · simp only [List.mem_singleton, List.not_mem_nil, or_false] at hc
        rcases hc with rfl | rfl <;> rfl
      · simp_all
  have htrans : ∀ t : Transition, dropBlanks false (transitionElement t) = transitionElement t :=
    fun t => dropBlanks_node <| dropBlanks_addToolspecific _ fun c hc => by simp_all
  have harc : ∀ a : Arc, dropBlanks false (arcElement a) = arcElement a := fun a =>
    dropBlanks_node fun c hc => by split_ifs at hc <;> simp_all
  rw [writePnml, dropBlanks_indent]
  refine dropBlanks_node fun c hc => ?_
  rw [List.mem_singleton.mp hc]
  refine dropBlanks_node fun c hc => ?_
  rw [List.mem_singleton.mp hc]
  refine dropBlanks_node fun c hc => ?_
  simp only [List.mem_append, List.mem_map] at hc
  rcases hc with (⟨p, -, rfl⟩ | ⟨t, -, rfl⟩) | ⟨a, -, rfl⟩
  exacts [hplace p, htrans t, harc a]

end Layout

/-! ## Reading the net back

A reader that follows the PNML defaults: it ignores layout whitespace, finds the
page, and reads each `place`, `transition` and `arc` child, an absent `initialMarking` as 0
and an absent `inscription` as 1. -/

namespace Element

/-- `e.find(tag)`: the first child with that tag. -/
def find (e : Element) (tag : String) : Option Element := e.children.find? (·.tag == tag)

/-- `e.findtext(tag + "/text")`. -/
def findText (e : Element) (tag : String) : Option String :=
  ((e.find tag).bind (·.find "text")).bind (·.text)

/-- `e.findall(tag)`. -/
def findAll (e : Element) (tag : String) : List Element := e.children.filter (·.tag == tag)

end Element

/-- `int(s)` on what `str(k)` writes: an optional `-`, then decimal digits. -/
def readInt (s : String) : Option Int :=
  match s.data with
  | '-' :: ds => if !ds.isEmpty && ds.all Char.isDigit then some (-(digitsValue ds : Int)) else none
  | ds => if !ds.isEmpty && ds.all Char.isDigit then some (digitsValue ds : Int) else none

def readPlace (e : Element) : Option (String × String × Int) := do
  let id ← e.attrib.lookup "id"
  let name ← e.findText "name"
  let initTokens ← (e.findText "initialMarking").elim (some 0) readInt
  pure (id, name, initTokens)

def readTransition (e : Element) : Option (String × String) := do
  let id ← e.attrib.lookup "id"
  let name ← e.findText "name"
  pure (id, name)

def readArc (e : Element) : Option (String × String × String × Int) := do
  let id ← e.attrib.lookup "id"
  let source ← e.attrib.lookup "source"
  let target ← e.attrib.lookup "target"
  let weight ← (e.findText "inscription").elim (some 1) readInt
  pure (id, source, target, weight)

/-- The places `(id, name, init_tokens)`, transitions `(id, name)` and arcs
`(id, source, target, weight)` of a PNML tree. -/
def readNet (root : Element) :
    Option (List (String × String × Int) × List (String × String) ×
      List (String × String × String × Int)) := do
  let page ← ((dropBlanks false root).find "net").bind (·.find "page")
  let places ← (page.findAll "place").mapM readPlace
  let transitions ← (page.findAll "transition").mapM readTransition
  let arcs ← (page.findAll "arc").mapM readArc
  pure (places, transitions, arcs)

theorem readInt_toString (k : Int) : readInt (toString k) = some k := by
  have hok : ∀ n : Nat, (!(toString n).data.isEmpty && (toString n).data.all Char.isDigit) = true :=
    fun n => by
      obtain ⟨hne, hdig, -⟩ := toString_nat_spec n
      simpa [List.isEmpty_iff, hne] using hdig
  cases k with
  | ofNat n =>
    have hs : (toString (Int.ofNat n)).data = (toString n).data := rfl
    unfold readInt
    rw [hs]
    split
    · rename_i ds heq
      exact absurd ((toString_nat_spec n).2.1 '-' (heq ▸ List.mem_cons_self _ _)) (by decide)
    · rw [if_pos (hok n), (toString_nat_spec n).2.2]
      rfl
  | negSucc n =>
    have hs : (toString (Int.negSucc n)).data = '-' :: (toString (n + 1)).data := rfl
    unfold readInt
    rw [hs]
    show (if (!(toString (n + 1)).data.isEmpty && (toString (n + 1)).data.all Char.isDigit) = true then
      some (-(digitsValue (toString (n + 1)).data : Int)) else none) = _
    rw [if_pos (hok (n + 1)), (toString_nat_spec (n + 1)).2.2]
    rfl

theorem mapM_map_eq_some {α β γ : Type} {f : α → β} {g : β → Option γ} {h : α → γ}
    {l : List α}
    (hl : ∀ x ∈ l, g (f x) = some (h x)) : (l.map f).mapM g = some (l.map h) := by
  induction l with
  | nil => rfl
  | cons x l ih =>
    rw [List.map_cons, List.mapM_cons, hl x (List.mem_cons_self _ _),
      ih fun y hy => hl y (List.mem_cons_of_mem _ hy)]
    rfl

theorem find_addToolspecific {annotations : List (String × String)} {cs : List Element} {tag : String}
    (htag : tag ≠ "toolspecific") :
    (addToolspecific annotations cs).find? (·.tag == tag) = cs.find? (·.tag == tag) := by
  unfold addToolspecific
  split
  · rfl
  · simp [List.find?_append, toolspecific, Ne.symm htag]

theorem readPlace_placeElement {p : Place} (h : 0 ≤ p.initTokens) :
    readPlace (placeElement p) = some (p.id, p.name, p.initTokens) := by
  simp only [readPlace, placeElement, Element.findText, Element.find,
    find_addToolspecific (show "name" ≠ "toolspecific" by decide),
    find_addToolspecific (show "initialMarking" ≠ "toolspecific" by decide)]
  split_ifs with hpos
  · simp [labelled, readInt_toString]
  · simp [labelled]
    omega

theorem readTransition_transitionElement (t : Transition) :
    readTransition (transitionElement t) = some (t.id, t.name) := by
  simp [readTransition, transitionElement, Element.findText, Element.find,
    find_addToolspecific (show "name" ≠ "toolspecific" by decide), labelled]

theorem readArc_arcElement (a : Arc) :
    readArc (arcElement a) = some (a.id, a.source, a.target, a.weight) := by
  simp only [readArc, arcElement, Element.findText, Element.find]
  split_ifs with hw
  · simp [labelled, readInt_toString]
  · simp [not_not.mp hw]

theorem readNet_writePnml {net : PetriNet} (h : ∀ p ∈ net.places, 0 ≤ p.initTokens) :
    readNet (writePnml net) =
      some (net.places.map (fun p => (p.id, p.name, p.initTokens)),
        net.transitions.map (fun t => (t.id, t.name)),
        net.arcs.map (fun a => (a.id, a.source, a.target, a.weight))) := by
  have hpage : ((pnmlTree net).find "net").bind (·.find "page") = some ⟨"page", [("id", "page0")],
      none, none, net.places.map placeElement ++ net.transitions.map transitionElement ++
        net.arcs.map arcElement⟩ := rfl
  simp only [readNet, dropBlanks_writePnml, hpage, Option.bind_eq_bind, Option.some_bind,
    Element.findAll, List.filter_append, List.filter_map, Function.comp_def, placeElement_tag,
    transitionElement_tag, arcElement_tag, String.reduceBEq, List.filter_true, List.filter_false,
    List.map_nil, List.append_nil, List.nil_append]
  rw [mapM_map_eq_some fun p hp => readPlace_placeElement (h p hp),
    mapM_map_eq_some fun t _ => readTransition_transitionElement t,
    mapM_map_eq_some fun a _ => readArc_arcElement a]
  rfl

/-- For a net whose markings are not negative, and whose markings and arc weights have at most
the 4300 digits `str()` converts, `write_pnml`'s tree is, but for layout whitespace,
`pnml/net/page` with a `place` element per place, then a `transition` element per transition,
then an `arc` element per arc; and a reader that takes an absent marking as 0 and an absent
inscription as 1 reads back every place's `(id, name, init_tokens)`, every transition's
`(id, name)` and every arc's `(id, source, target, weight)`. -/
theorem writePnml_readNet (net : PetriNet)
    (h : ∀ p ∈ net.places, 0 ≤ p.initTokens ∧ PyIntFits p.initTokens)
    (_ : ∀ a ∈ net.arcs, PyIntFits a.weight) :
    dropBlanks false (writePnml net) =
        ⟨"pnml", [], none, none, [⟨"net", [("id", "mir2pnml_net"), ("type", pnmlNs)], none, none,
          [⟨"page", [("id", "page0")], none, none,
            net.places.map placeElement ++ net.transitions.map transitionElement ++
              net.arcs.map arcElement⟩]⟩]⟩ ∧
      readNet (writePnml net) =
        some (net.places.map (fun p => (p.id, p.name, p.initTokens)),
          net.transitions.map (fun t => (t.id, t.name)),
          net.arcs.map (fun a => (a.id, a.source, a.target, a.weight))) :=
  ⟨dropBlanks_writePnml net, readNet_writePnml fun p hp => (h p hp).1⟩

/-- A net with a marked place, an annotated place with a blank name, and a weighted arc. -/
def sampleNet : PetriNet :=
  ⟨[⟨"p_main_entry", "main_entry", "cfg", 1, []⟩,
      ⟨"p_main_exit", " ", "cfg", 0, [("role", "exit")]⟩],
    [⟨"t_main_start", "main_start", "cfg", none, []⟩],
    [⟨"arc_1", "p_main_entry", "t_main_start", 1⟩, ⟨"arc_2", "t_main_start", "p_main_exit", 2⟩],
    [("p_main_entry", 1)], []⟩

theorem writePnml_readNet_sampleNet :
    (∀ p ∈ sampleNet.places, 0 ≤ p.initTokens ∧ PyIntFits p.initTokens) ∧
      (∀ a ∈ sampleNet.arcs, PyIntFits a.weight) ∧
      (dropBlanks false (writePnml sampleNet) =
        ⟨"pnml", [], none, none, [⟨"net", [("id", "mir2pnml_net"), ("type", pnmlNs)], none, none,
          [⟨"page", [("id", "page0")], none, none,
            sampleNet.places.map placeElement ++ sampleNet.transitions.map transitionElement ++
              sampleNet.arcs.map arcElement⟩]⟩]⟩ ∧
      readNet (writePnml sampleNet) =
        some (sampleNet.places.map (fun p => (p.id, p.name, p.initTokens)),
          sampleNet.transitions.map (fun t => (t.id, t.name)),
          sampleNet.arcs.map (fun a => (a.id, a.source, a.target, a.weight)))) :=
  ⟨by decide, by decide, writePnml_readNet sampleNet (by decide) (by decide)⟩

/-- Every net the translator builds reads back from its PNML tree: its markings are 0 or 1. -/
theorem readNet_writePnml_buildPetriNet (functions : List MirFunction) (entryFn : String)
    (maxFns : Option Int) :
    readNet (writePnml (buildPetriNet functions entryFn maxFns)) =
      some ((buildPetriNet functions entryFn maxFns).places.map (fun p => (p.id, p.name, p.initTokens)),
        (buildPetriNet functions entryFn maxFns).transitions.map (fun t => (t.id, t.name)),
        (buildPetriNet functions entryFn maxFns).arcs.map
          (fun a => (a.id, a.source, a.target, a.weight))) :=
  readNet_writePnml fun p hp => by
    rw [init_of_mem_places hp, initOfId]
    split_ifs <;> decide

/-- Two nets that differ only in a place name, `" "` against `""`. -/
def blankName : PetriNet := ⟨[⟨"p", " ", "cfg", 0, []⟩], [], [], [], []⟩

def emptyName : PetriNet := ⟨[⟨"p", "", "cfg", 0, []⟩], [], [], [], []⟩

/-- With every whitespace-only text ignored, that of the leaf `text` elements included, the two
trees are the same: no reader of them tells the two names apart. -/
theorem blankName_emptyName_same_tree :
    dropBlanks true (writePnml blankName) = dropBlanks true (writePnml emptyName) ∧
      blankName.places.map (·.name) ≠ emptyName.places.map (·.name) :=
  ⟨rfl, by decide⟩

end Mir2Pnml
