import CommandText.Proofs.SchemaFeatures
import Mathlib.Data.List.Perm.Subperm
import Mathlib.Logic.Relation

/-!
# Walks over supertypes

The walk that orders classes enters a class before its supertypes and adds it after them. A walk
that succeeds only adds classes to the order, each after its supertypes, and none of those that have
been entered and not added. A walk that fails has met a class that it was led to from itself. So the
order exists exactly where no class inherits from itself.

## Implementation notes

The bound on the walk counts the classes that have not been entered. All classes on the path are
different, so it is never used up: a class for which there is no bound left is on the path.
-/

namespace CommandText

open List Relation

/-- One class lists another one as a supertype. -/
def Extends (supertypes : List (List Nat)) (c p : Nat) : Prop := p ∈ supertypesOf supertypes c

/-- Every class that is listed as a supertype is there. -/
def Resolved (supertypes : List (List Nat)) : Prop :=
  ∀ c p, Extends supertypes c p → p < supertypes.length

/-- An order in which every class comes after its supertypes. -/
structure Topological (supertypes : List (List Nat)) (order : List Nat) : Prop where
  nodup : order.Nodup
  after : ∀ before c rest, order = before ++ c :: rest →
    ∀ p, Extends supertypes c p → p ∈ before

variable {supertypes : List (List Nat)} {order order' order'' path cs : List Nat} {c p : Nat}

theorem Extends.lt_length (h : Extends supertypes c p) : c < supertypes.length := by
  by_contra hc
  have hnone : supertypesOf supertypes c = [] := by
    simp [supertypesOf, getD_eq_getElem?_getD, getElem?_eq_none (Nat.le_of_not_lt hc)]
  rw [Extends, hnone] at h
  exact absurd h (by simp)

namespace Topological

theorem nil : Topological supertypes [] :=
  ⟨nodup_nil, fun before c rest h => absurd h (by simp)⟩

theorem append_singleton (h : Topological supertypes order) (hc : c ∉ order)
    (hp : ∀ p, Extends supertypes c p → p ∈ order) : Topological supertypes (order ++ [c]) := by
  constructor
  · rw [nodup_append]
    exact ⟨h.nodup, by simp, by simpa using fun a ha => ne_of_mem_of_not_mem ha hc⟩
  · intro before d rest heq q hq
    rcases eq_nil_or_concat rest with rfl | ⟨rest, e, rfl⟩
    · obtain ⟨rfl, hlast⟩ := append_inj' heq rfl
      cases hlast
      exact hp q hq
    · have heq' : order ++ [c] = (before ++ d :: rest) ++ [e] := by simpa using heq
      exact h.after before d rest (append_inj' heq' rfl).1 q hq

theorem of_append (h : Topological supertypes (order ++ order')) :
    Topological supertypes order := by
  refine ⟨h.nodup.sublist (sublist_append_left order order'), fun before c rest heq => ?_⟩
  exact h.after before c (rest ++ order') (by simp [heq])

theorem idxOf_lt (h : Topological supertypes order) (hc : c ∈ order) (hp : Extends supertypes c p) :
    p ∈ order ∧ order.idxOf p < order.idxOf c := by
  obtain ⟨before, rest, rfl⟩ := append_of_mem hc
  have hmem : p ∈ before := h.after before c rest rfl p hp
  have hc' : c ∉ before := fun hc' =>
    (nodup_append.mp h.nodup).2.2 c hc' c mem_cons_self rfl
  refine ⟨mem_append_left _ hmem, ?_⟩
  rw [idxOf_append_of_mem hmem, idxOf_append_of_notMem hc']
  exact Nat.lt_add_right _ (idxOf_lt_length_of_mem hmem)

theorem not_transGen (h : Topological supertypes order) (hc : c ∈ order) :
    ¬ TransGen (Extends supertypes) c c := by
  have hlt : ∀ d, TransGen (Extends supertypes) c d →
      d ∈ order ∧ order.idxOf d < order.idxOf c := by
    intro d hd
    induction hd with
    | single hd => exact h.idxOf_lt hc hd
    | tail _ hd ih =>
      obtain ⟨hmem, hlt⟩ := h.idxOf_lt ih.1 hd
      exact ⟨hmem, Nat.lt_trans hlt ih.2⟩
  exact fun hself => Nat.lt_irrefl _ (hlt c hself).2

end Topological

/-! ### What a walk adds -/

/-- What a walk does to the order, if it succeeds with some classes entered and not added. -/
structure Walked (supertypes : List (List Nat)) (path order order' : List Nat) : Prop where
  grows : order <+: order'
  topological : Topological supertypes order → Topological supertypes order'
  inside : (∀ c ∈ order, c < supertypes.length) → ∀ c ∈ order', c < supertypes.length
  /-- What has been entered is not added. -/
  avoids : ∀ c ∈ path, c ∉ order → c ∉ order'

namespace Walked

theorem refl : Walked supertypes path order order :=
  ⟨prefix_refl order, id, id, fun _ _ => id⟩

theorem trans (h : Walked supertypes path order order')
    (h' : Walked supertypes path order' order'') :
    Walked supertypes path order order'' :=
  ⟨h.grows.trans h'.grows, h'.topological ∘ h.topological, h'.inside ∘ h.inside,
    fun c hc hmem => h'.avoids c hc (h.avoids c hc hmem)⟩

theorem append_singleton (h : Walked supertypes (c :: path) order order') (hc : c ∉ order)
    (hpath : c ∉ path) (hlt : c < supertypes.length)
    (hp : ∀ p, Extends supertypes c p → p ∈ order') :
    Walked supertypes path order (order' ++ [c]) where
  grows := h.grows.trans (prefix_append order' [c])
  topological := fun horder =>
    (h.topological horder).append_singleton (h.avoids c mem_cons_self hc) hp
  inside := fun horder d hd => by
    rcases mem_append.mp hd with hd | hd
    · exact h.inside horder d hd
    · exact mem_singleton.mp hd ▸ hlt
  avoids := fun d hd hmem hd' => by
    rcases mem_append.mp hd' with hd' | hd'
    · exact h.avoids d (mem_cons_of_mem c hd) hmem hd'
    · exact hpath (mem_singleton.mp hd' ▸ hd)

end Walked

/-! ### The calls of a walk -/

/-- A walk over some classes, one after the other, without a bound on its calls. A class that has
been added is passed over, one on the path ends the walk, and any other one is entered: its
supertypes are walked with the class on the path, and then it is added. -/
inductive Visits (supertypes : List (List Nat)) :
    List Nat → List Nat → List Nat → Except Nat (List Nat) → Prop
  | nil {path order : List Nat} : Visits supertypes path [] order (.ok order)
  | added {path order cs : List Nat} {c : Nat} {result : Except Nat (List Nat)} (hc : c ∈ order)
      (h : Visits supertypes path cs order result) : Visits supertypes path (c :: cs) order result
  | met {path order cs : List Nat} {c : Nat} (hc : c ∉ order) (hpath : c ∈ path) :
      Visits supertypes path (c :: cs) order (.error c)
  | enter {path order mid cs : List Nat} {c : Nat} {result : Except Nat (List Nat)}
      (hc : c ∉ order) (hpath : c ∉ path)
      (hin : Visits supertypes (c :: path) (supertypesOf supertypes c) order (.ok mid))
      (h : Visits supertypes path cs (mid ++ [c]) result) :
      Visits supertypes path (c :: cs) order result
  | fail {path order cs : List Nat} {c e : Nat} (hc : c ∉ order) (hpath : c ∉ path)
      (hin : Visits supertypes (c :: path) (supertypesOf supertypes c) order (.error e)) :
      Visits supertypes path (c :: cs) order (.error e)

theorem length_lt_of_nodup {n : Nat} (hpath : (c :: path).Nodup) (hlt : ∀ x ∈ c :: path, x < n) :
    path.length < n := by
  have hsub : c :: path ⊆ List.range n := fun x hx => mem_range.mpr (hlt x hx)
  have hle := (subperm_of_subset hpath hsub).length_le
  rw [length_cons, length_range] at hle
  omega

/-- The bound on a walk is never used up, so it makes all of its calls. -/
theorem visits_foldlM (hresolved : Resolved supertypes) {bound : Nat} {path cs order : List Nat}
    (hbound : path.length + bound = supertypes.length) (hpath : path.Nodup)
    (hlt : ∀ x ∈ path, x < supertypes.length) (hcs : ∀ c ∈ cs, c < supertypes.length) :
    Visits supertypes path cs order
      (cs.foldlM (fun order c => walk supertypes bound path c order) order) := by
  match cs with
  | [] => exact .nil
  | c :: cs =>
    obtain ⟨hc, hcs⟩ := forall_mem_cons.mp hcs
    rw [foldlM_cons, walk.eq_def]
    by_cases horder : c ∈ order
    · rw [if_pos (by simpa using horder)]
      exact .added horder (visits_foldlM hresolved hbound hpath hlt hcs)
    rw [if_neg (by simpa using horder)]
    by_cases hmem : c ∈ path
    · rw [if_pos (by simpa using hmem)]
      exact .met horder hmem
    rw [if_neg (by simpa using hmem)]
    have hnodup : (c :: path).Nodup := nodup_cons.mpr ⟨hmem, hpath⟩
    have hlt' : ∀ x ∈ c :: path, x < supertypes.length := forall_mem_cons.mpr ⟨hc, hlt⟩
    match bound with
    | 0 =>
      -- all classes are on the path, and `c` is not
      have := length_lt_of_nodup hnodup hlt'
      omega
    | bound + 1 =>
      have hbound' : (c :: path).length + bound = supertypes.length := by
        rw [length_cons]
        omega
      have hin : Visits supertypes (c :: path) (supertypesOf supertypes c) order _ :=
        visits_foldlM hresolved hbound' hnodup hlt' (hresolved c)
      cases hfold : (supertypesOf supertypes c).foldlM
          (fun order s => walk supertypes bound (c :: path) s order) order with
      | error e =>
        simp only [hfold] at hin ⊢
        exact .fail horder hmem hin
      | ok mid =>
        simp only [hfold] at hin ⊢
        exact .enter horder hmem hin (visits_foldlM hresolved hbound hpath hlt hcs)
termination_by (bound, cs.length)

theorem visits_inheritanceOrder (hresolved : Resolved supertypes) :
    Visits supertypes [] (List.range supertypes.length) [] (inheritanceOrder supertypes) :=
  visits_foldlM hresolved (by simp) nodup_nil (by simp) fun _ => mem_range.mp

namespace Visits

variable {result : Except Nat (List Nat)}

theorem walked (h : Visits supertypes path cs order result) (hresolved : Resolved supertypes)
    (hcs : ∀ c ∈ cs, c < supertypes.length) (hok : result = .ok order') :
    Walked supertypes path order order' ∧ ∀ c ∈ cs, c ∈ order' := by
  induction h generalizing order' with
  | nil =>
    cases hok
    exact ⟨.refl, by simp⟩
  | added hc _ ih =>
    obtain ⟨hwalked, hall⟩ := ih (forall_mem_cons.mp hcs).2 hok
    exact ⟨hwalked, forall_mem_cons.mpr ⟨hwalked.grows.subset hc, hall⟩⟩
  | enter hc hpath _ _ ihin ih =>
    obtain ⟨hlt, hcs⟩ := forall_mem_cons.mp hcs
    obtain ⟨hinner, hparents⟩ := ihin (hresolved _) rfl
    obtain ⟨hlater, hall⟩ := ih hcs hok
    have hfirst := hinner.append_singleton hc hpath hlt hparents
    exact ⟨hfirst.trans hlater, forall_mem_cons.mpr ⟨hlater.grows.subset (by simp), hall⟩⟩
  | met | fail => cases hok

/-- A class is only met again on a way from itself. -/
theorem transGen (h : Visits supertypes path cs order result)
    (hpath : ∀ x ∈ path, ∀ c ∈ cs, TransGen (Extends supertypes) x c) (herror : result = .error c) :
    TransGen (Extends supertypes) c c := by
  induction h with
  | nil => cases herror
  | added _ _ ih | enter _ _ _ _ _ ih =>
    exact ih (fun x hx c hc => hpath x hx c (mem_cons_of_mem _ hc)) herror
  | met _ hmem =>
    cases herror
    exact hpath c hmem c mem_cons_self
  | fail _ _ _ ih =>
    refine ih (forall_mem_cons.mpr ⟨fun p hp => .single hp, fun x hx p hp => ?_⟩) herror
    exact (hpath x hx _ mem_cons_self).tail hp

end Visits

/-! ### The whole order -/

theorem topological_of_inheritanceOrder (hresolved : Resolved supertypes)
    (h : inheritanceOrder supertypes = .ok order) :
    Topological supertypes order ∧ ∀ c, c ∈ order ↔ c < supertypes.length := by
  obtain ⟨hwalked, hall⟩ :=
    (visits_inheritanceOrder hresolved).walked hresolved (fun _ => mem_range.mp) h
  exact ⟨hwalked.topological .nil, fun c =>
    ⟨hwalked.inside (by simp) c, fun hc => hall c (mem_range.mpr hc)⟩⟩

theorem transGen_of_inheritanceOrder (hresolved : Resolved supertypes)
    (h : inheritanceOrder supertypes = .error c) : TransGen (Extends supertypes) c c :=
  (visits_inheritanceOrder hresolved).transGen (by simp) h

theorem exists_inheritanceOrder_iff (hresolved : Resolved supertypes) :
    (∃ order, inheritanceOrder supertypes = .ok order) ↔
      ∀ c, ¬ TransGen (Extends supertypes) c c := by
  constructor
  · rintro ⟨order, h⟩ c hself
    obtain ⟨htopological, hall⟩ := topological_of_inheritanceOrder hresolved h
    obtain ⟨p, hp, -⟩ := TransGen.head'_iff.mp hself
    exact htopological.not_transGen ((hall c).mpr hp.lt_length) hself
  · intro hacyclic
    cases h : inheritanceOrder supertypes with
    | ok order => exact ⟨order, rfl⟩
    | error c => exact absurd (transGen_of_inheritanceOrder hresolved h) (hacyclic c)

namespace SchemaDefinition

/-- Classes with resolved supertypes are put in an order by finitely many calls. It holds each class
once and behind all of its supertypes. It fails exactly if some class inherits from itself, and then
it names one that does. -/
theorem order_decides (d : SchemaDefinition) (hlength : supertypes.length = d.classes.length)
    (hresolved : Resolved supertypes) :
    Visits supertypes [] (List.range d.classes.length) [] (inheritanceOrder supertypes) ∧
    (∀ order, d.order supertypes = .ok order → order.Perm (List.range d.classes.length) ∧
      ∀ before c rest, order = before ++ c :: rest → ∀ p, Extends supertypes c p → p ∈ before) ∧
    (∀ error, d.order supertypes = .error error → ∃ c k, d.classes[c]? = some k ∧
      error = .cyclicInheritance k.name ∧ TransGen (Extends supertypes) c c) ∧
    ((∃ error, d.order supertypes = .error error) ↔ ∃ c, TransGen (Extends supertypes) c c) := by
  have hiff := exists_inheritanceOrder_iff hresolved
  rw [← hlength]
  refine ⟨visits_inheritanceOrder hresolved, ?_⟩
  unfold order
  cases h : inheritanceOrder supertypes with
  | ok order =>
    obtain ⟨htopological, hall⟩ := topological_of_inheritanceOrder hresolved h
    refine ⟨fun order' heq => ?_, fun error heq => (by cases heq), iff_of_false ?_ ?_⟩
    · cases heq
      refine ⟨(perm_ext_iff_of_nodup htopological.nodup nodup_range).mpr fun c => ?_,
        htopological.after⟩
      rw [hall, mem_range]
    · rintro ⟨error, heq⟩
      cases heq
    · exact not_exists.mpr (hiff.mp ⟨order, h⟩)
  | error c =>
    have hcycle := transGen_of_inheritanceOrder hresolved h
    obtain ⟨p, hp, -⟩ := TransGen.head'_iff.mp hcycle
    have hget := getElem?_eq_getElem (hlength ▸ hp.lt_length)
    refine ⟨fun order heq => (by cases heq), fun error heq => ?_,
      iff_of_true ⟨_, rfl⟩ ⟨c, hcycle⟩⟩
    cases heq
    exact ⟨c, _, hget, by rw [hget]; rfl, hcycle⟩

/-- A car that has a cycle above it and is not on the cycle itself. -/
def loopedCars : SchemaDefinition where
  classes := [{ name := "Car" }, { name := "Wheel" }, { name := "Tyre" }]

/-- The class that is named is on the cycle. -/
theorem order_decides_loopedCars :
    loopedCars.order [[1], [2, 2], [1]] = .error (.cyclicInheritance "Wheel") ∧
      ∃ c k, loopedCars.classes[c]? = some k ∧ k.name = "Wheel" ∧
        TransGen (Extends [[1], [2, 2], [1]]) c c := by
  have hresolved : Resolved [[1], [2, 2], [1]] := by
    intro c p h
    have hc := h.lt_length
    rw [Extends, supertypesOf, getD_eq_getElem?_getD, getElem?_eq_getElem hc] at h
    exact (by decide : ∀ ps ∈ [[1], [2, 2], [1]], ∀ p ∈ ps, p < 3) _ (getElem_mem hc) p h
  obtain ⟨-, -, hnamed, -⟩ := order_decides loopedCars rfl hresolved
  obtain ⟨c, k, hk, hname, hcycle⟩ := hnamed _ rfl
  exact ⟨rfl, c, k, hk, (SchemaError.cyclicInheritance.inj hname).symm, hcycle⟩

end SchemaDefinition

end CommandText
