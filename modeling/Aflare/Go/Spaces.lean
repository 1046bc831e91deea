import Aflare.Go.Lines

/-!
# White space at the ends of a text

`strings.TrimSpace` takes white space away from the left and then from the right. A text is often
given in its parts, some of them white space; the lemmas say what is left of it. -/

namespace Go

open List

/-! ## Dropping forms -/

/-- No form is empty or begins another one, so that a text has at most one way to start. -/
def PrefixFree (forms : List Str) : Prop := [] ∉ forms ∧ ∀ f ∈ forms, ∀ g ∈ forms, f <+: g → f = g

section Forms

variable {forms : List Str} {f s : Str}

/-- Either a form stands at the front of a text or none does. -/
theorem find?_form (forms : List Str) (s : Str) :
    (∃ form ∈ forms, ∃ r, s = form ++ r ∧ (forms.find? fun form => form.isPrefixOf s) = some form) ∨
    (∀ form ∈ forms, ¬ form <+: s) ∧ (forms.find? fun form => form.isPrefixOf s) = none := by
  cases hfind : forms.find? fun form => form.isPrefixOf s with
  | none =>
    refine .inr ⟨fun form hform hprefix => ?_, rfl⟩
    exact find?_eq_none.mp hfind form hform <| isPrefixOf_iff_prefix.mpr hprefix
  | some form =>
    have hfound := find?_some hfind
    obtain ⟨r, rfl⟩ := isPrefixOf_iff_prefix.mp hfound
    exact .inl ⟨form, mem_of_find?_eq_some hfind, r, rfl, rfl⟩

theorem PrefixFree.find? (h : PrefixFree forms) (hf : f ∈ forms) :
    (forms.find? fun form => form.isPrefixOf (f ++ s)) = some f := by
  obtain ⟨g, hg, r, heq, hfind⟩ | ⟨hnone, -⟩ := find?_form forms (f ++ s)
  · -- both stand in front of the same text, so one begins the other
    rw [hfind]
    obtain hgf | hfg := prefix_or_prefix_of_prefix ⟨r, heq.symm⟩ (prefix_append f s)
    · rw [h.2 g hg f hf hgf]
    · rw [h.2 f hf g hg hfg]
  · exact absurd (prefix_append f s) (hnone f hf)

theorem length_pos_of_form (hforms : [] ∉ forms) (hf : f ∈ forms) : 0 < f.length :=
  length_pos_iff.mpr fun hnil => hforms (hnil ▸ hf)

/-- More fuel than there are bytes makes no difference. -/
theorem dropForms_of_le (hforms : [] ∉ forms) {fuel : ℕ} (h : s.length ≤ fuel) :
    dropForms forms fuel s = dropForms forms s.length s := by
  induction fuel using Nat.strongRecOn generalizing s with
  | _ fuel ih =>
    obtain hlt | rfl := h.lt_or_eq
    · obtain ⟨fuel, rfl⟩ := Nat.exists_eq_add_one_of_ne_zero hlt.ne_bot
      obtain ⟨form, hform, r, rfl, hfind⟩ | ⟨-, hnone⟩ := find?_form forms s
      · have hpos := length_pos_of_form hforms hform
        obtain ⟨n, hn⟩ := Nat.exists_eq_add_one_of_ne_zero (n := (form ++ r).length)
          (by rw [length_append]; omega)
        rw [length_append] at h hlt hn
        rw [length_append, hn, dropForms, dropForms, hfind]
        dsimp only
        rw [drop_left, ih fuel (by omega) (by omega), ih n (by omega) (by omega)]
      · rcases s with - | ⟨b, s⟩ <;> simp [dropForms, hnone]
    · rfl

theorem dropForms_form_append (h : PrefixFree forms) (hf : f ∈ forms) :
    dropForms forms (f ++ s).length (f ++ s) = dropForms forms s.length s := by
  have hpos := length_pos_of_form h.1 hf
  obtain ⟨n, hn⟩ := Nat.exists_eq_add_one_of_ne_zero (n := (f ++ s).length)
    (by rw [length_append]; omega)
  rw [hn, dropForms, h.find? hf]
  dsimp only
  rw [drop_left, dropForms_of_le h.1 (by rw [length_append] at hn; omega)]

theorem dropForms_flatten (h : PrefixFree forms) {fs : List Str} (hfs : ∀ f ∈ fs, f ∈ forms) :
    dropForms forms (fs.flatten ++ s).length (fs.flatten ++ s) = dropForms forms s.length s := by
  induction fs with
  | nil => rfl
  | cons f fs ih =>
    obtain ⟨hf, hfs⟩ := forall_mem_cons.mp hfs
    rw [flatten_cons, append_assoc, dropForms_form_append h hf, ih hfs]

/-- A byte that is in no form stops the dropping, wherever it stands. -/
theorem dropForms_append_cons {b : UInt8} (hb : ∀ form ∈ forms, b ∉ form) (fuel : ℕ) (r : Str) :
    dropForms forms fuel (s ++ b :: r) = dropForms forms fuel s ++ b :: r := by
  have hprefix : ∀ form ∈ forms, ∀ s : Str,
      form.isPrefixOf (s ++ b :: r) = form.isPrefixOf s := by
    intro form hform s
    rw [Bool.eq_iff_iff, isPrefixOf_iff_prefix, isPrefixOf_iff_prefix]
    exact ⟨prefix_of_append_cons (hb form hform), fun hs => hs.trans ⟨_, rfl⟩⟩
  induction fuel generalizing s with
  | zero => rfl
  | succ fuel ih =>
    have hfind : (forms.find? fun form => form.isPrefixOf (s ++ b :: r)) =
        forms.find? fun form => form.isPrefixOf s :=
      find?_congr fun form hform => hprefix form hform s
    simp only [dropForms, hfind]
    cases hfound : forms.find? fun form => form.isPrefixOf s with
    | none => rfl
    | some form =>
      have hle : form.length ≤ s.length := by
        have hform := find?_some hfound
        exact isPrefixOf_iff_prefix.mp hform |>.length_le
      dsimp only
      rw [drop_append_of_le_length hle, ih]

/-- Nothing is left to drop. -/
theorem dropForms_dropForms (h : PrefixFree forms) :
    dropForms forms (dropForms forms s.length s).length (dropForms forms s.length s) =
      dropForms forms s.length s := by
  induction hlen : s.length using Nat.strongRecOn generalizing s with
  | _ n ih =>
    subst hlen
    obtain ⟨form, hform, r, rfl, -⟩ | ⟨-, hnone⟩ := find?_form forms s
    · have hpos := length_pos_of_form h.1 hform
      rw [dropForms_form_append h hform]
      exact ih _ (by rw [length_append]; omega) rfl
    · have hkeep : dropForms forms s.length s = s := by
        rcases s with - | ⟨b, s⟩ <;> simp [dropForms, hnone]
      rw [hkeep, hkeep]

theorem dropForms_suffix (fuel : ℕ) : dropForms forms fuel s <:+ s := by
  induction fuel generalizing s with
  | zero => exact suffix_rfl
  | succ fuel ih =>
    rw [dropForms]
    split
    · exact suffix_rfl
    · exact ih.trans (drop_suffix _ _)

end Forms

/-! ## The two ends -/

/-- `strings.TrimLeftFunc` with `unicode.IsSpace`. -/
def trimLeft (s : Str) : Str := dropForms spaceForms s.length s

/-- `strings.TrimRightFunc` with `unicode.IsSpace`. -/
def trimRight (s : Str) : Str :=
  (dropForms (spaceForms.map List.reverse) s.length s.reverse).reverse

theorem trimSpace_eq (s : Str) : trimSpace s = trimRight (trimLeft s) := rfl

/-- A byte that no white space character contains. -/
def Solid (b : UInt8) : Prop := ∀ form ∈ spaceForms, b ∉ form
  deriving Decidable

theorem solid_reverse {b : UInt8} (h : Solid b) :
    ∀ form ∈ spaceForms.map List.reverse, b ∉ form := by
  intro form hform
  obtain ⟨form, hmem, rfl⟩ := mem_map.mp hform
  rw [mem_reverse]
  exact h form hmem

abbrev SpaceForm := { form : Str // form ∈ spaceForms }

variable (l : List SpaceForm)

def spaces : Str := (l.map Subtype.val).flatten

theorem prefixFree_spaceForms : PrefixFree spaceForms := by
  unfold PrefixFree
  decide

theorem prefixFree_spaceForms_reverse : PrefixFree (spaceForms.map List.reverse) := by
  unfold PrefixFree
  decide

variable {s : Str} {b : UInt8}

@[simp] theorem trimLeft_spaces : trimLeft (spaces l ++ s) = trimLeft s := by
  refine dropForms_flatten prefixFree_spaceForms fun f hf => ?_
  obtain ⟨form, -, rfl⟩ := mem_map.mp hf
  exact form.2

@[simp] theorem trimRight_spaces :
    trimRight (s ++ spaces l) = trimRight s := by
  have hreverse : (spaces l).reverse = (l.reverse.map fun form => form.val.reverse).flatten := by
    rw [spaces, reverse_flatten, map_map, ← map_reverse]
    rfl
  rw [trimRight, ← length_reverse, reverse_append, hreverse,
    dropForms_flatten prefixFree_spaceForms_reverse fun f hf => ?_, length_reverse, trimRight]
  obtain ⟨form, -, rfl⟩ := mem_map.mp hf
  exact mem_map_of_mem form.2

theorem trimLeft_solid (hb : Solid b) : trimLeft (b :: s) = b :: s :=
  dropForms_append_cons (s := []) hb _ s

theorem trimRight_solid (hb : Solid b) (v : Str) :
    trimRight (s ++ b :: v) = s ++ b :: trimRight v := by
  rw [trimRight, trimRight, reverse_append, reverse_cons, append_assoc,
    singleton_append, dropForms_append_cons (solid_reverse hb),
    dropForms_of_le prefixFree_spaceForms_reverse.1 (by simp; omega)]
  simp

theorem trimRight_trimRight : trimRight (trimRight s) = trimRight s := by
  have h := @dropForms_dropForms _ s.reverse prefixFree_spaceForms_reverse
  rw [length_reverse] at h
  simp only [trimRight, reverse_reverse, length_reverse, h]

variable {c : UInt8}

theorem trimSpace_append_solid (hc : Solid c) (s : Str) :
    ∃ u, trimSpace (s ++ [c]) = u ++ [c] ∧ u <:+ s := by
  refine ⟨dropForms spaceForms (s ++ [c]).length s, ?_, dropForms_suffix _⟩
  rw [trimSpace_eq, trimLeft, dropForms_append_cons hc, trimRight_solid hc]
  rfl

theorem trimSpace_of_solid (hb : Solid b) (hc : Solid c) (s : Str) :
    trimSpace (b :: (s ++ [c])) = b :: (s ++ [c]) := by
  rw [trimSpace_eq, trimLeft_solid hb]
  exact trimRight_solid (s := b :: s) hc []

/-! ## Words -/

variable {f word : Str}

theorem fieldsAux_of_le {fuel : ℕ} (h : s.length ≤ fuel) :
    fieldsAux fuel word s = fieldsAux s.length word s := by
  induction fuel using Nat.strongRecOn generalizing s word with
  | _ fuel ih =>
    obtain hlt | rfl := h.lt_or_eq
    · obtain ⟨fuel, rfl⟩ := Nat.exists_eq_add_one_of_ne_zero hlt.ne_bot
      rcases s with - | ⟨b, s⟩
      · rfl
      rw [length_cons] at h hlt
      obtain ⟨form, hform, r, heq, hfind⟩ | ⟨-, hnone⟩ := find?_form spaceForms (b :: s)
      · have hlen := congrArg length heq
        have hpos := length_pos_of_form prefixFree_spaceForms.1 hform
        rw [length_cons, length_append] at hlen
        simp only [length_cons, fieldsAux, hfind]
        rw [heq, drop_left, ih fuel (by omega) (by omega), ih s.length (by omega) (by omega)]
      · simp only [length_cons, fieldsAux, hnone]
        exact ih fuel (by omega) (by omega)
    · rfl

theorem fieldsAux_form (hf : f ∈ spaceForms) :
    fieldsAux (f ++ s).length word (f ++ s) = (if word = [] then [] else [word]) ++ fields s := by
  have hpos := length_pos_of_form prefixFree_spaceForms.1 hf
  obtain ⟨n, hn⟩ := Nat.exists_eq_add_one_of_ne_zero (n := (f ++ s).length)
    (by rw [length_append]; omega)
  simp only [hn, fieldsAux, prefixFree_spaceForms.find? hf, drop_left]
  rw [fieldsAux_of_le (by rw [length_append] at hn; omega), fields]

theorem fieldsAux_cons (h : (spaceForms.find? fun form => form.isPrefixOf (b :: s)) = none) :
    fieldsAux (b :: s).length word (b :: s) = fieldsAux s.length (word ++ [b]) s := by
  simp only [length_cons, fieldsAux, h]

/-- A byte that is white space by itself and stands in no other form ends a word. -/
theorem fieldsAux_append_blank (hb : [b] ∈ spaceForms ∧ ∀ form ∈ spaceForms, b ∈ form → form = [b])
    (t : Str) :
    fieldsAux (s ++ b :: t).length word (s ++ b :: t) = fieldsAux s.length word s ++ fields t := by
  induction hlen : s.length using Nat.strongRecOn generalizing s word with
  | _ n ih =>
    subst hlen
    rcases s with - | ⟨c, s⟩
    · exact fieldsAux_form hb.1
    obtain ⟨form, hform, r, heq, -⟩ | ⟨hno, hnone⟩ := find?_form spaceForms (c :: s)
    · have hpos := length_pos_of_form prefixFree_spaceForms.1 hform
      have hrest : fields (r ++ b :: t) = fields r ++ fields t :=
        ih r.length (by rw [heq, length_append]; omega) rfl
      rw [heq, append_assoc, fieldsAux_form hform, fieldsAux_form hform, hrest, append_assoc]
    · have hnone' : (spaceForms.find? fun form => form.isPrefixOf (c :: (s ++ b :: t))) = none := by
        obtain ⟨form, hform, r, heq, -⟩ | ⟨-, h⟩ := find?_form spaceForms (c :: (s ++ b :: t))
        · -- a form that ends behind the text contains the byte, and would be that byte alone
          have hend := (prefix_append_cons_cases (a := c :: s) ⟨r, heq.symm⟩).resolve_left
            (hno form hform)
          have hlen := hend.length_le
          rw [hb.2 form hform (hend.subset (by simp))] at hlen
          simp at hlen
        · exact h
      rw [cons_append, fieldsAux_cons hnone', fieldsAux_cons hnone]
      exact ih s.length (by simp) rfl

/-- A text without white space is one word. -/
theorem fieldsAux_of_no_form (h : ∀ form ∈ spaceForms, ¬ form <:+: s) (hword : word ++ s ≠ []) :
    fieldsAux s.length word s = [word ++ s] := by
  induction s generalizing word with
  | nil => simpa [fieldsAux] using hword
  | cons b s ih =>
    obtain ⟨form, hform, r, heq, -⟩ | ⟨-, hnone⟩ := find?_form spaceForms (b :: s)
    · exact absurd ⟨[], r, by simp [heq]⟩ (h form hform)
    · rw [fieldsAux_cons hnone, ih (fun form hform hs => h form hform (hs.trans ⟨[b], [], by simp⟩))
        (by simp)]
      simp

theorem fieldsAux_solid (h : ∀ b ∈ f, Solid b) :
    fieldsAux (f ++ s).length word (f ++ s) = fieldsAux s.length (word ++ f) s := by
  induction f generalizing word with
  | nil => simp
  | cons b f ih =>
    obtain ⟨hb, hf⟩ := forall_mem_cons.mp h
    obtain ⟨form, hform, r, heq, -⟩ | ⟨-, hnone⟩ := find?_form spaceForms (b :: (f ++ s))
    · obtain ⟨c, form, rfl⟩ := exists_cons_of_length_pos
        (length_pos_of_form prefixFree_spaceForms.1 hform)
      exact absurd ((cons.inj heq).1 ▸ mem_cons_self) (hb _ hform)
    · rw [cons_append, fieldsAux_cons hnone, ih hf]
      simp

/-- A word that has been read in part begins the first word. -/
theorem fieldsAux_word (hword : word ≠ []) :
    ∃ t rest, fieldsAux s.length word s = (word ++ t) :: rest := by
  induction s generalizing word with
  | nil => exact ⟨[], [], by simp [fieldsAux, hword]⟩
  | cons b s ih =>
    obtain ⟨form, hform, r, heq, -⟩ | ⟨-, hnone⟩ := find?_form spaceForms (b :: s)
    · exact ⟨[], fields r, by rw [heq, fieldsAux_form hform, if_neg hword]; simp⟩
    · obtain ⟨t, rest, heq⟩ := @ih (word ++ [b]) (by simp)
      exact ⟨b :: t, rest, by rw [fieldsAux_cons hnone, heq]; simp⟩

end Go
