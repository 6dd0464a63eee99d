import CommandText.Proofs.BlankCursor
import CommandText.Proofs.ElementLines
import CommandText.Proofs.ElementPath
import CommandText.Proofs.InstantiatedModel

/-!
# The element at the cursor

At a blank line, the outline of the lines above is turned into a model of its own. The element found
there stands for the innermost one whose block is open at the line: from it outwards, the elements
are of the same classes and have the same arguments as those in the model of the whole text.
-/

namespace CommandText

open List Model

variable {s : Schema} {stages : List Stage} {ids : List ElementId} {m : Model}
variable {stages' : List Stage}

/-! ### Elements and those around them -/

namespace Model
variable {id : ElementId} {outer : Option ClassId}

/-- An element, if there is one, and those that it is contained in, up to one that nothing
contains. -/
inductive Ancestry (m : Model) : Option ElementId → List ElementId → Prop
  | nil : Ancestry m none []
  | cons {id : ElementId} {ids : List ElementId} (h : Ancestry m (m.parent id) ids) :
      Ancestry m (some id) (id :: ids)

theorem Ancestry.eq_none_iff {element : Option ElementId} (h : m.Ancestry element ids) :
    element = none ↔ ids = [] := by
  cases h <;> simp

theorem Descends.map_line (h : m.Descends s outer stages ids) :
    ids.map (fun id => (m.elementAt id).line) = stages.map fun stage => some stage.word.line := by
  induction h with
  | nil => rfl
  | cons made _ _ ih => rw [map_cons, map_cons, made.line, ih]

theorem Descends.parent_eq (h : m.Descends s (some (m.classOf id)) stages ids)
    (hcontains : ∀ next ∈ stages.head?, ∀ child ∈ ids.head?, m.Contains s id next child) :
    ∀ child ∈ ids.head?, m.parent child = some id := by
  intro child hchild
  cases h with
  | nil => cases hchild
  | cons =>
    obtain ⟨f, -, hcontainer⟩ := hcontains _ rfl child hchild
    rw [parent, hcontainer]
    rfl

theorem Descends.ancestry (h : m.Descends s outer stages ids) {around : Option ElementId}
    {rest : List ElementId} (haround : m.Ancestry around rest)
    (hhead : ∀ id ∈ ids.head?, m.parent id = around) :
    m.Ancestry (ids.getLast?.or around) (ids.reverse ++ rest) := by
  induction h generalizing around rest with
  | nil => exact haround
  | @cons outer stage id stages ids made contains hrest ih =>
    have hid : m.Ancestry (some id) (id :: rest) := .cons (hhead id rfl ▸ haround)
    have hinner := ih hid (hrest.parent_eq contains)
    rw [reverse_cons, append_assoc, getLast?_cons]
    cases hlast : ids.getLast? <;> rw [hlast] at hinner <;> exact hinner

/-! ### Going down -/

theorem IsForest.firstChild_eq (h : m.IsForest s) {child : ElementId} {f : FeatureId}
    (hchild : m.container child = some (id, f))
    (honly : ∀ j g, m.container j = some (id, g) → j = child) : m.firstChild s id = some child := by
  have hchildren {j : ElementId} {g : FeatureId} (hj : j ∈ m.children id g) :
      m.container j = some (id, g) := by
    obtain ⟨v, hv, helement⟩ := mem_filterMap.mp hj
    cases v with
    | element =>
      cases helement
      exact (h.container_iff j id g).mpr hv
    | _ => cases helement
  have hmem : child ∈ m.children id f :=
    mem_filterMap.mpr ⟨_, (h.container_iff child id f).mp hchild, rfl⟩
  have hsome : (m.firstChild s id).isSome = true := by
    rw [firstChild, findSome?_isSome_iff]
    exact ⟨f, h.feature child id f hchild, isSome_head?.mpr (ne_nil_of_mem hmem)⟩
  obtain ⟨j, hj⟩ := Option.isSome_iff_exists.mp hsome
  obtain ⟨g, -, hhead⟩ := exists_of_findSome?_eq_some hj
  rw [hj, honly j g (hchildren (mem_of_head? hhead))]

theorem Descends.descend_eq (hforest : m.IsForest s)
    (honly : ∀ j j' id f g, m.container j = some (id, f) → m.container j' = some (id, g) → j = j')
    {stage : Stage} (h : m.Descends s outer (stage :: stages) (id :: ids)) :
    m.descend s stages.length (some id) = (id :: ids).getLast? := by
  induction stages generalizing outer stage id ids with
  | nil =>
    cases h with
    | cons _ _ rest =>
      cases rest
      rfl
  | cons next stages ih =>
    cases h with
    | cons _ contains rest =>
      obtain ⟨child, ids, rfl⟩ : ∃ child ids', ids = child :: ids' := by
        cases rest
        exact ⟨_, _, rfl⟩
      obtain ⟨f, -, hcontainer⟩ := contains next rfl child rfl
      have hfirst : m.firstChild s id = some child :=
        hforest.firstChild_eq hcontainer fun j g hj => honly j child id g f hj hcontainer
      show m.descend s stages.length (m.firstChild s id) = _
      rw [hfirst, ih rest, getLast?_cons_cons]

theorem Descends.container_eq {first : Nat}
    (h : m.Descends s outer stages (madeFrom first stages.length)) {j : Nat} (hfirst : first ≤ j)
    (hj : j + 1 < first + stages.length) : ∃ f, m.container j = some (j + 1, f) := by
  induction stages generalizing outer with
  | nil =>
    rw [length_nil] at hj
    omega
  | cons stage stages ih =>
    rw [length_cons, madeFrom_succ] at h
    rw [length_cons] at hj
    cases h with
    | cons _ contains rest =>
      have hcases : j + 1 < first + stages.length ∨ j + 1 = first + stages.length := by omega
      rcases hcases with hj | hj
      · exact ih rest hj
      · cases stages with
        | nil =>
          rw [length_nil] at hj
          omega
        | cons next stages =>
          obtain ⟨f, -, hcontainer⟩ := contains next rfl (first + stages.length) (by simp)
          obtain rfl : j = first + stages.length := by
            rw [length_cons] at hj
            omega
          exact ⟨f, hcontainer⟩

end Model

/-! ### The context at a blank line -/

/-- The state in front of a text. -/
def Building.blank : Building Unit := { model := {}, keeper := () }

/-- The members and the state behind a text. -/
def buildText (s : Schema) (text : List Char) : List (Member ElementId) × Building Unit :=
  Entry.visitAll (builder s {} none) none (parse (tokenize s.pattern text)).entries .blank

theorem model_instantiate (text : List Char) :
    (instantiate s text).model = (buildText s text).2.model := rfl

theorem roots_instantiate (text : List Char) :
    (instantiate s text).roots = (buildText s text).2.roots := rfl

theorem problems_eq_nil_of_instantiate {text : List Char}
    (h : (instantiate s text).problems = []) :
    (buildText s text).2.problems = [] ∧ (parse (tokenize s.pattern text)).problems = [] :=
  problems_eq_nil_of_instantiateWith h

theorem isForest_instantiate (hs : s.Accepted) (text : List Char) :
    (instantiate s text).model.IsForest s :=
  (sound_instantiateWith hs {} (by simp) () text).1.isForest

/-- The elements of a way down, made from the innermost to the outermost, and no others. -/
structure Model.Tower (s : Schema) (stage : Stage) (stages : List Stage) (m : Model) : Prop where
  forest : m.IsForest s
  descends : m.Descends s none (stage :: stages) (madeFrom 0 (stage :: stages).length)
  size : m.size = stages.length + 1
  free : m.container stages.length = none

section Tower

variable {stage : Stage}

theorem Model.Tower.parent_eq (h : m.Tower s stage stages) {j p : Nat} {f : FeatureId}
    (hj : m.container j = some (p, f)) : p = j + 1 := by
  have hlt : j < stages.length + 1 := h.size ▸ m.lt_size_of_container hj
  have hne : j ≠ stages.length := by
    rintro rfl
    rw [h.free] at hj
    cases hj
  obtain ⟨g, hg⟩ := h.descends.container_eq (Nat.zero_le j) (by rw [length_cons]; omega)
  rw [hg] at hj
  cases hj
  rfl

theorem Model.Tower.ancestry (h : m.Tower s stage stages) :
    m.Ancestry (m.descend s stages.length (some stages.length))
      (madeFrom 0 (stage :: stages).length).reverse := by
  have hdescends := h.descends
  rw [length_cons, madeFrom_succ, Nat.zero_add] at hdescends ⊢
  have hfree : m.parent stages.length = none := by rw [parent, h.free, Option.map_none]
  have hancestry := hdescends.ancestry .nil (by simpa using hfree)
  rw [Option.or_none, append_nil, ← hdescends.descend_eq h.forest ?_] at hancestry
  · exact hancestry
  · intro j j' id f g hj hj'
    exact Nat.succ.inj ((h.parent_eq hj).symm.trans (h.parent_eq hj'))

end Tower

theorem tower_instantiate (hs : s.Accepted) {text : List Char} {stage : Stage}
    (hthin : Thin none (parse (tokenize s.pattern text)).entries (stage :: stages'))
    (hdescends : m.Descends s none stages ids)
    (hkin : List.Forall₂ Stage.Kin stages (stage :: stages')) :
    (instantiate s text).model.Tower s stage stages' ∧
      (instantiate s text).roots = [stages'.length] := by
  have hremakes : Remakes s none none (stage :: stages') .blank (buildText s text).1
      (buildText s text).2 := hthin.remakes hs none hdescends hkin .blank
  have hlast : (madeFrom 0 (stage :: stages').length).head? = some stages'.length := by simp
  have hsize : (instantiate s text).model.size = 0 + (stages'.length + 1) := hremakes.size
  have hroots : (instantiate s text).roots = [] ++ [stages'.length] :=
    (hremakes.roots rfl).trans (congrArg ([] ++ ·.toList) hlast)
  obtain ⟨-, -, -, -, hfree⟩ := hremakes.handed stage rfl _ hlast
  rw [Nat.zero_add] at hsize
  exact ⟨⟨isForest_instantiate hs text, hremakes.descends, hsize, hfree⟩, hroots⟩

theorem exists_descends_rebuild (hs : s.Accepted) {o : Outline}
    (hthin : Thin none (parse (tokenize s.pattern (List.intercalate ['\n'] o.lines))).entries
      stages')
    (hdepth : o.depth = stages'.length) (hdescends : m.Descends s none stages ids)
    (hkin : List.Forall₂ Stage.Kin stages stages') :
    ∃ ids', (o.rebuild s).1.Ancestry (o.rebuild s).2 ids'.reverse ∧
      (o.rebuild s).1.Descends s none stages' ids' := by
  cases stages' with
  | nil =>
    rw [Outline.rebuild, hdepth]
    exact ⟨[], .nil, .nil⟩
  | cons stage stages' =>
    obtain ⟨htower, hroots⟩ := tower_instantiate hs hthin hdescends hkin
    let built := instantiate s (List.intercalate ['\n'] o.lines)
    have hrebuild : o.rebuild s =
        (built.model, built.model.descend s stages'.length built.roots.head?) := by
      rw [Outline.rebuild, hdepth]
      rfl
    rw [hrebuild, show built.roots = [stages'.length] from hroots]
    exact ⟨_, htower.ancestry, htower.descends⟩

theorem exists_ancestry_rebuild (hs : s.Accepted) {o : Outline}
    (hthin : Thin none (parse (tokenize s.pattern (List.intercalate ['\n'] o.lines))).entries
      stages')
    (hdepth : o.depth = stages'.length) (hdescends : m.Descends s none stages ids)
    (halike : List.Forall₂ Stage.Alike stages stages') :
    ∃ ids', (o.rebuild s).1.Ancestry (o.rebuild s).2 ids'.reverse ∧
      List.Forall₂ (m.Mirrors s (o.rebuild s).1) ids ids' := by
  obtain ⟨ids', hancestry, hdescends'⟩ := exists_descends_rebuild hs hthin hdepth hdescends
    (halike.imp fun _ _ h => h.toKin)
  exact ⟨ids', hancestry, Model.Descends.forall₂ (fun made made' halike =>
    have hmirrors := made.mirrors made' halike
    ⟨hmirrors.classOf, hmirrors⟩) hdescends hdescends' halike⟩

/-- The context of the cursor at a blank line. Its element stands for the innermost one of the whole
text whose block is open there, and it is surrounded in the same way. -/
theorem context?_of_blank (hs : s.Accepted) (hpattern : s.pattern = .stock) {text : List Char}
    (hcontinues : ∀ l ∈ scanLines s.pattern 0 false (linesOf text), l.continues = false)
    (hmark : '\ufeff' ∉ text) (hproblems : (instantiate s text).problems = []) {i : Nat}
    {line : Line} (hline : (documentLines text)[i]? = some line)
    (hblank : isBlankLine line = true) :
    ∃ ctx, context? s (openPath (documentLines text) i) none = some ctx ∧
      let m := (instantiate s text).model
      let blocks := openBlocks [] ((tokenize s.pattern text).filter (·.line ≤ i))
      (ctx.element = none ↔ blocks = []) ∧
      ∃ ids ids', m.Ancestry ids.head? ids ∧
        ids.map (fun id => (m.elementAt id).line) = blocks.map some ∧
        (∀ id < m.size, (m.elementAt id).line ∈ blocks.map some → id ∈ ids) ∧
        ctx.model.Ancestry ctx.element ids' ∧ List.Forall₂ (m.Mirrors s ctx.model) ids ids' := by
  obtain ⟨hbuild, hparse⟩ := problems_eq_nil_of_instantiate hproblems
  have hreads : Form.Reads (.items none) (tokenize s.pattern text)
      ((parse (tokenize s.pattern text)).entries, []) [] :=
    (parse_eq_iff _ _).mp (congrArg (Parsed.mk _) hparse)
  -- the commands whose blocks are open, and their elements in the model of the text
  rw [hpattern] at hcontinues hreads
  obtain ⟨stages, stages', o, hpath, hblocks, houtline, hdepth, halike, hthin⟩ :=
    exists_outline hmark hcontinues hreads hline hblank
  have hcommands := nodup_linesAll hmark hcontinues hreads
  rw [← hpattern] at hpath hblocks houtline hthin hcommands
  obtain ⟨ids, hdescends, hfree, -⟩ := hpath.finds hs none hbuild
  -- their elements in the model of the outline
  obtain ⟨ids', hancestry', hmirrors⟩ :=
    exists_ancestry_rebuild hs hthin (hdepth.trans halike.length_eq) hdescends halike
  obtain ⟨ctx, hctx, hmodel, helement⟩ : ∃ ctx,
      context? s (openPath (documentLines text) i) none = some ctx ∧
        ctx.model = (o.rebuild s).1 ∧ ctx.element = (o.rebuild s).2 := by
    rw [context?, houtline]
    exact ⟨_, rfl, rfl, rfl⟩
  rw [← hmodel, ← helement] at hancestry'
  rw [← hmodel] at hmirrors
  have hlines : ids.reverse.map (fun id => ((instantiate s text).model.elementAt id).line) =
      (openBlocks [] ((tokenize s.pattern text).filter (·.line ≤ i))).map some := by
    rw [map_reverse, hblocks, map_reverse, map_map]
    exact congrArg List.reverse hdescends.map_line
  refine ⟨ctx, hctx, ?_, ids.reverse, ids'.reverse, ?_, hlines, fun id hid hline => ?_, hancestry',
    List.forall₂_reverse_iff.mpr hmirrors⟩
  · have hlength : ids'.length = stages.length := by
      simpa [hmirrors.length_eq] using congrArg List.length hdescends.map_line
    rw [hancestry'.eq_none_iff, hblocks]
    simp [← length_eq_zero_iff, hlength]
  · have hancestry := hdescends.ancestry .nil fun id hid =>
      by rw [parent, hfree id hid, Option.map_none]
    rw [Option.or_none, append_nil] at hancestry
    rw [head?_reverse]
    exact hancestry
  · have hnodup : (instantiate s text).model.lines.Nodup :=
      (numbers_visitAll hs none _ .blank).nodup rfl hcommands
    rw [← hlines] at hline
    obtain ⟨id', hid', hline⟩ := mem_map.mp hline
    have hlt : id' < (instantiate s text).model.size :=
      hdescends.lt_size id' (mem_reverse.mp hid')
    rwa [← Model.eq_of_line_eq hnodup hlt hid hline]

/-- A box on a list in another one, with a blank line in its block. -/
def nestedText : List Char :=
  "Box outer \x7b\n  Box left\n  boxes: [\n    Box inner \x7b\n\n    \x7d\n  ]\n\x7d\n".toList

theorem context?_nestedText : ∃ s, boxes.build = .ok s ∧
    (instantiate s nestedText).problems = [] ∧
    openBlocks [] ((tokenize s.pattern nestedText).filter (·.line ≤ 4)) = [4, 1] ∧
    ∃ ctx, context? s (openPath (documentLines nestedText) 4) none = some ctx ∧
      ctx.element ≠ none ∧ ∃ ids ids', (instantiate s nestedText).model.Ancestry ids.head? ids ∧
        ids.map (fun id => ((instantiate s nestedText).model.elementAt id).line) =
          [some 4, some 1] ∧
        ctx.model.Ancestry ctx.element ids' ∧
        List.Forall₂ ((instantiate s nestedText).model.Mirrors s ctx.model) ids ids' := by
  refine ⟨_, rfl, by decide +kernel, by decide +kernel, ?_⟩
  obtain ⟨ctx, hctx, hnone, ids, ids', hancestry, hlines, -, hancestry', hmirrors⟩ :=
    context?_of_blank ⟨boxes, rfl⟩ (by decide +kernel) (by decide +kernel) (by decide)
      (by decide +kernel) (show (documentLines nestedText)[4]? = some [] by decide +kernel) rfl
  refine ⟨ctx, hctx, fun h => ?_, ids, ids', hancestry, hlines.trans (by decide +kernel),
    hancestry', hmirrors⟩
  exact absurd (hnone.mp h) (by decide +kernel)
end CommandText
