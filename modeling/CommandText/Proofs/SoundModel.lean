import CommandText.Proofs.ArgumentSlots

/-!
# Sound models

A model is sound if its elements are of concrete classes and hold only values that fit, and if its
children are recorded alike on both sides: an element has a container exactly if it is a value
there, and it is one just once. Children are created before what contains them. All changes that
are made to a model while a text is worked on keep it sound.
-/

namespace CommandText

open List

variable {f : FeatureId}

namespace Schema

variable {s : Schema}

theorem exists_containment_of_takes {k : FeatureKind} {c : ElementId}
    (h : s.takes k (.element c) = true) : ∃ target, k = .containment target := by
  cases k with
  | containment target => exact ⟨target, rfl⟩
  | reference target => cases h
  | data d => cases d <;> cases h

theorem mem_containments_iff (s : Schema) {c : ClassId} :
    f ∈ s.containments c ↔ f ∈ s.featuresOf c ∧
      ∃ target, (s.featureAt f).kind = .containment target := by
  rw [containments, mem_filter, Feature.isContainment]
  cases (s.featureAt f).kind <;> simp

theorem Holds.count_element {c : ClassId} {vs : List Value} (h : s.Holds c f vs)
    (hf : f ∈ s.arguments c) (id : ElementId) : vs.count (.element id) = 0 := by
  rw [count_eq_zero]
  intro hmem
  obtain ⟨target, hkind⟩ := exists_containment_of_takes (h.takes _ hmem)
  have := (s.mem_arguments_iff.mp hf).2
  simp [Feature.isContainment, hkind] at this

end Schema

namespace Model

variable {s : Schema} {m : Model}

structure Sound (s : Schema) (m : Model) : Prop where
  concrete : ∀ id < m.size, (s.classAt (m.classOf id)).isAbstract = false
  fits : ∀ id f, m.values id f ≠ [] → s.Holds (m.classOf id) f (m.values id f)
  container_iff : ∀ c p f, m.container c = some (p, f) ↔ .element c ∈ m.values p f
  once : ∀ c p f, (m.values p f).count (.element c) ≤ 1
  conforms : ∀ c p f, m.container c = some (p, f) →
    (s.featureAt f).target?.any (s.conforms (m.classOf c)) = true
  child_lt : ∀ c p f, m.container c = some (p, f) → c < p

theorem sound_empty (s : Schema) : Sound s {} where
  concrete _ h := absurd h (Nat.not_lt_zero _)
  fits _ _ h := absurd rfl h
  container_iff _ _ _ := iff_of_false (fun h => by cases h) (fun h => by cases h)
  once c p f := Nat.zero_le _
  conforms c p f h := by cases h
  child_lt c p f h := by cases h

theorem Sound.create (h : Sound s m) {type : ClassId}
    (htype : (s.classAt type).isAbstract = false) (line : Option Nat) :
    Sound s (m.create type line) := by
  have hclass {id : ElementId} (hid : id < m.size) :
      (m.create type line).classOf id = m.classOf id := by
    rw [classOf_create, if_neg (Nat.ne_of_lt hid)]
  refine ⟨fun id hid => ?_, fun id f hne => ?_, fun c p f => ?_, fun c p f => ?_,
    fun c p f hc => ?_, fun c p f hc => ?_⟩
  · rw [classOf_create]
    split
    · exact htype
    · next hne =>
      rw [size_create] at hid
      exact h.concrete id (Nat.lt_of_le_of_ne (Nat.le_of_lt_succ hid) hne)
  · rw [values_create] at hne ⊢
    obtain ⟨v, hv⟩ := exists_mem_of_ne_nil _ hne
    rw [hclass (m.lt_size_of_mem_values hv)]
    exact h.fits id f hne
  · rw [container_create, values_create]
    exact h.container_iff c p f
  · rw [values_create]
    exact h.once c p f
  · rw [container_create] at hc
    rw [hclass (m.lt_size_of_container hc)]
    exact h.conforms c p f hc
  · rw [container_create] at hc
    exact h.child_lt c p f hc

theorem Sound.fill (h : Sound s m) {id : ElementId} {g : Slots → Slots}
    (hfits : s.Fits (m.classOf id) (g (m.elementAt id).values))
    (hsame : ∀ f ∉ s.arguments (m.classOf id), (g (m.elementAt id).values).get f = m.values id f) :
    Sound s (m.fill id g) := by
  -- the elements among the values stay the same, since arguments hold none
  have hcount (c p : ElementId) (f : FeatureId) :
      ((m.fill id g).values p f).count (.element c) = (m.values p f).count (.element c) := by
    rw [values_fill]
    split
    · next hp =>
      obtain ⟨rfl, -⟩ := hp
      by_cases hf : f ∈ s.arguments (m.classOf p)
      · have hzero {vs : List Value} (hvs : vs ≠ [] → s.Holds (m.classOf p) f vs) :
            vs.count (.element c) = 0 := by
          by_cases hne : vs = []
          · simp [hne]
          · exact (hvs hne).count_element hf c
        rw [hzero (hfits f), hzero (h.fits p f)]
      · rw [hsame f hf]
    · rfl
  refine ⟨fun j hj => ?_, fun j f hne => ?_, fun c p f => ?_, fun c p f => ?_,
    fun c p f hc => ?_, fun c p f hc => ?_⟩
  · rw [size_fill] at hj
    rw [classOf_fill]
    exact h.concrete j hj
  · rw [classOf_fill]
    rw [values_fill] at hne ⊢
    split
    · next hj =>
      rw [if_pos hj] at hne
      rw [hj.1]
      exact hfits f hne
    · next hj =>
      rw [if_neg hj] at hne
      exact h.fits j f hne
  · rw [container_fill, h.container_iff, ← count_pos_iff, ← count_pos_iff, hcount]
  · rw [hcount]
    exact h.once c p f
  · rw [container_fill] at hc
    rw [classOf_fill]
    exact h.conforms c p f hc
  · rw [container_fill] at hc
    exact h.child_lt c p f hc

theorem Sound.setValue (h : Sound s m) {id : ElementId} (hf : f ∈ s.arguments (m.classOf id))
    {v : Value} (hv : s.takes (s.featureAt f).kind v = true) : Sound s (m.setValue id f v) := by
  rw [setValue_eq_fill]
  refine h.fill (fun g hg => ?_) fun g hg => ?_
  · by_cases hgf : g = f
    · rw [hgf, Slots.get_put_self]
      exact ⟨(s.mem_arguments_iff.mp hf).1, fun _ => Nat.le_refl 1, by simpa using hv⟩
    · rw [Slots.get_put_of_ne hgf] at hg ⊢
      exact h.fits id g hg
  · have hgf : g ≠ f := fun hgf => hg (hgf ▸ hf)
    rw [Slots.get_put_of_ne hgf]
    rfl

theorem Sound.attach (h : Sound s m) {p c : ElementId} {m' : Model} (hm' : m.Attached p f c m')
    (hfree : m.container c = none) (hlt : c < p) (hf : f ∈ s.containments (m.classOf p))
    (htarget : (s.featureAt f).target?.any (s.conforms (m.classOf c)) = true)
    (hroom : (s.featureAt f).many = false → m.values p f = []) : Sound s m' := by
  have hnot (q : ElementId) (g : FeatureId) : (m.values q g).count (.element c) = 0 := by
    rw [count_eq_zero, ← h.container_iff, hfree]
    simp
  -- a slot that has changed has the child at its end, and the others are as they were
  have hcount (d q : ElementId) (g : FeatureId) :
      (m'.values q g).count (.element d) =
        (m.values q g).count (.element d) + if q = p ∧ g = f ∧ d = c then 1 else 0 := by
    rw [hm'.values]
    split
    · next hslot =>
      obtain ⟨rfl, rfl⟩ := hslot
      rw [count_append]
      by_cases hd : d = c
      · simp [hd]
      · have hne : Value.element c ≠ .element d := fun heq => hd (Value.element.inj heq).symm
        simp [hd, hne]
    · next hslot =>
      rw [if_neg (fun hall => hslot ⟨hall.1, hall.2.1⟩)]
      rfl
  refine ⟨fun j hj => ?_, fun j g hne => ?_, fun d q g => ?_, fun d q g => ?_,
    fun d q g hd => ?_, fun d q g hd => ?_⟩
  · rw [hm'.classOf]
    exact h.concrete j (hm'.size ▸ hj)
  · rw [hm'.classOf]
    rw [hm'.values] at hne ⊢
    split
    · next hslot =>
      obtain ⟨rfl, rfl⟩ := hslot
      obtain ⟨hmem, target, hkind⟩ := s.mem_containments_iff.mp hf
      refine ⟨hmem, fun hsingle => by simp [hroom hsingle], fun v hv => ?_⟩
      rcases mem_append.mp hv with hv | hv
      · exact (h.fits j g (ne_nil_of_mem hv)).takes v hv
      · rw [mem_singleton.mp hv, hkind]
        rfl
    · next hslot =>
      rw [if_neg hslot] at hne
      exact h.fits j g hne
  · rw [hm'.container, ← count_pos_iff, hcount]
    by_cases hd : d = c
    · rw [hd, hnot]
      by_cases hslot : q = p ∧ g = f
      · simp [hslot]
      · rw [if_pos rfl, if_neg (fun hall => hslot ⟨hall.1, hall.2.1⟩)]
        refine iff_of_false (fun heq => hslot ?_) (Nat.lt_irrefl 0)
        obtain ⟨rfl, rfl⟩ := Prod.mk.inj (Option.some.inj heq)
        exact ⟨rfl, rfl⟩
    · rw [if_neg hd, if_neg (fun hall => hd hall.2.2), Nat.add_zero, count_pos_iff]
      exact h.container_iff d q g
  · rw [hcount]
    split
    · next hslot => simp [hslot.2.2, hnot]
    · exact h.once d q g
  · rw [hm'.classOf]
    rw [hm'.container] at hd
    split at hd
    · next heq =>
      cases hd
      rw [heq]
      exact htarget
    · exact h.conforms d q g hd
  · rw [hm'.container] at hd
    split at hd
    · next heq =>
      cases hd
      rw [heq]
      exact hlt
    · exact h.child_lt d q g hd

end Model

end CommandText
