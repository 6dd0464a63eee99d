import CommandText.Proofs.LaidReading
import CommandText.Proofs.NewElements
import Mathlib.Data.List.Nodup
import Mathlib.Data.List.Perm.Subperm

/-!
# The lines of elements

An element stands on the line of the command that it was created for. No two commands stand on one
line, so an element can be told by its line.
-/

namespace CommandText

open List Model BuildM

variable {τ : Type} {s : Schema}

/-- The lines of all elements. -/
def Model.lines (m : Model) : List (Option Nat) := m.ids.map fun id => (m.elementAt id).line

theorem Model.eq_of_line_eq {m : Model} (h : m.lines.Nodup) {id id' : ElementId} (hid : id < m.size)
    (hid' : id' < m.size) (hline : (m.elementAt id).line = (m.elementAt id').line) : id = id' :=
  inj_on_of_nodup_map h (mem_range.mpr hid) (mem_range.mpr hid') hline

theorem Model.Added.lines {c : ClassId} {w : Token} {args : List Argument} {m m' : Model}
    (h : Added s c w args m m') : m'.lines = m.lines ++ [some w.line] := by
  rw [Model.lines, Model.ids, h.size, range_succ, map_append, Model.lines, Model.ids,
    map_singleton, h.lineOf]
  refine congrArg (· ++ _) (map_congr_left fun j hj => ?_)
  exact h.later.lineOf j (mem_range.mp hj)

/-! ### New elements -/

namespace Building

/-- The elements that are new in a later state stand on lines out of these. -/
def Numbers (b b' : Building τ) (lines : List Nat) : Prop :=
  ∃ new : List (Option Nat), b'.model.lines = b.model.lines ++ new ∧ new.Subperm (lines.map some)

variable {b b₁ b₂ b₃ : Building τ} {lines lines' : List Nat}

theorem Numbers.of_eq (h : b₁.model = b.model) (lines : List Nat) : b.Numbers b₁ lines :=
  ⟨[], by rw [h, append_nil], nil_subperm⟩

theorem Numbers.append (h : b₁.Numbers b₂ lines) (h' : b₂.Numbers b₃ lines') :
    b₁.Numbers b₃ (lines ++ lines') := by
  obtain ⟨new, hnew, hsub⟩ := h
  obtain ⟨new', hnew', hsub'⟩ := h'
  refine ⟨new ++ new', by rw [hnew', hnew, append_assoc], ?_⟩
  rw [map_append]
  exact hsub.append hsub'

theorem Numbers.subperm (h : b₁.Numbers b₂ lines) (hlines : lines.Subperm lines') :
    b₁.Numbers b₂ lines' := by
  obtain ⟨new, hnew, hsub⟩ := h
  exact ⟨new, hnew, hsub.trans (hlines.map fun _ _ h => Option.some.inj h)⟩

theorem Numbers.nodup (h : b₁.Numbers b₂ lines) (hempty : b₁.model.lines = [])
    (hlines : lines.Nodup) : b₂.model.lines.Nodup := by
  obtain ⟨new, hnew, chosen, hperm, hsub⟩ := h
  have hsome : (lines.map some).Nodup := hlines.map fun _ _ h => Option.some.inj h
  rw [hnew, hempty, nil_append]
  exact hperm.nodup_iff.mp (hsome.sublist hsub)

end Building

theorem numbers_leave (statement : Statement ElementId) (scope : Option ClassId) (b : Building τ)
    (hmembers : ∀ member ∈ statement.members, ∀ child ∈ member.answers, child < b.model.size) :
    b.Numbers ((builder s {} none).leave statement scope b).2 [statement.command.line] := by
  rcases leave_cases s {} none statement scope b with ⟨fault, -, heq⟩ | ⟨c, -, -, heq⟩ <;> rw [heq]
  · exact .of_eq rfl _
  · exact ⟨_, (added_furnish c statement b hmembers).lines, .refl _⟩

mutual

theorem numbers_visit (hs : s.Accepted) (enclosing : Option (Option ClassId)) (entry : Entry)
    (b : Building τ) : b.Numbers (entry.visit (builder s {} none) enclosing b).2 entry.lines := by
  cases entry with
  | comment c => exact .of_eq rfl _
  | role label list items => exact numbers_visitAll hs enclosing items b
  | statement w args body closing =>
    let scope := s.classForCommand? w.text enclosing.join
    have hbody := numbers_visitAll hs (some scope) body b
    rw [Entry.lines]
    cases closing with
    | none => exact hbody.subperm (sublist_cons_self _ _).subperm
    | some closing =>
      have hrun := run_builder hs {} CommentKeeper.tame_of_mem_none (some scope) body b
      -- the element of a statement is created behind those of its block
      refine (hbody.append (numbers_leave ⟨w, args, _, _, _, _⟩ scope _ ?_)).subperm
        (perm_append_singleton _ _).subperm
      exact fun member hmember child hchild => (hrun.answers member hmember child hchild).2

theorem numbers_visitAll (hs : s.Accepted) (enclosing : Option (Option ClassId))
    (entries : List Entry) (b : Building τ) :
    b.Numbers (Entry.visitAll (builder s {} none) enclosing entries b).2
      (Entry.linesAll entries) := by
  cases entries with
  | nil => exact .of_eq rfl _
  | cons entry entries =>
    exact (numbers_visit hs enclosing entry b).append (numbers_visitAll hs enclosing entries _)

end

end CommandText
