import Mathlib.Data.List.Basic
import Mathlib.Data.List.Induction
import Mathlib.Data.List.Nodup

/-!
# Hash chains

A chain of records, each of which carries a link to the one before it and a tag of its own. If equal
tags have equal links and no tag is the root, then the tags are distinct, and a second chain from
the root whose tags all occur in the first one, with the same links, runs along it. Some records of
a chain with distinct tags form a chain themselves only if they stand next to each other in it.
-/

namespace HashChain

open List

variable {R H : Type*} {link tag : R → H} {root : H}

/-- Every record links to the tag of the one before it, and the first one to the root. -/
def Linked (link tag : R → H) : H → List R → Prop
  | _, [] => True
  | root, r :: rs => link r = root ∧ Linked link tag (tag r) rs

/-- The tag at which a chain ends. -/
def head (tag : R → H) : H → List R → H
  | root, [] => root
  | _, r :: rs => head tag (tag r) rs

theorem head_append (root : H) (rs ss : List R) :
    head tag root (rs ++ ss) = head tag (head tag root rs) ss := by
  induction rs generalizing root with
  | nil => rfl
  | cons r rs ih => exact ih (tag r)

variable {rs ss : List R}

theorem linked_append :
    Linked link tag root (rs ++ ss) ↔
      Linked link tag root rs ∧ Linked link tag (head tag root rs) ss := by
  induction rs generalizing root with
  | nil => simp [Linked, head]
  | cons r rs ih => simp only [cons_append, Linked, head, ih, and_assoc]

/-- The end of a chain is the root or one of its tags. -/
theorem head_mem (root : H) (rs : List R) : head tag root rs ∈ root :: rs.map tag := by
  induction rs generalizing root with
  | nil => exact mem_singleton_self root
  | cons r rs ih => exact mem_cons_of_mem _ (ih (tag r))

variable {rs : List R}

/-- The links of a chain are the root and all tags but the last. -/
theorem Linked.map_link (h : Linked link tag root rs) :
    rs.map link = (root :: rs.map tag).take rs.length := by
  induction rs generalizing root with
  | nil => rfl
  | cons r rs ih =>
    rw [map_cons, h.1, ih h.2, length_cons, take_succ_cons, map_cons]

/-- Every link of a chain is the root or one of its tags. -/
theorem Linked.link_mem (h : Linked link tag root rs) {r : R} (hr : r ∈ rs) :
    link r ∈ root :: rs.map tag := by
  have hlink : link r ∈ rs.map link := mem_map_of_mem hr
  rw [h.map_link] at hlink
  exact mem_of_mem_take hlink

/-- A map that keeps links and tags keeps chains. -/
theorem linked_map {f : R → R} (h : ∀ r ∈ rs, link (f r) = link r ∧ tag (f r) = tag r) :
    Linked link tag root (rs.map f) ↔ Linked link tag root rs := by
  induction rs generalizing root with
  | nil => exact Iff.rfl
  | cons r rs ih =>
    obtain ⟨hlink, htag⟩ := h r mem_cons_self
    simp only [map_cons, Linked, hlink, htag, ih fun s hs => h s (mem_cons_of_mem _ hs)]

/-- Two chains with the same tags end at the same tag. -/
theorem head_congr (h : List.Forall₂ (fun r s => tag r = tag s) rs ss) :
    head tag root rs = head tag root ss := by
  induction h generalizing root with
  | nil => rfl
  | cons heq _ ih => rw [head, head, heq, ih]

/-- No record of a chain with distinct tags links to the tag at its end. -/
theorem Linked.link_ne_head (h : Linked link tag root rs)
    (hnodup : (root :: rs.map tag).Nodup) {r : R} (hr : r ∈ rs) : link r ≠ head tag root rs := by
  obtain ⟨front, back, rfl⟩ := append_of_mem hr
  rw [(linked_append.mp h).2.1, head_append, head]
  rw [map_append, ← cons_append, nodup_append] at hnodup
  exact hnodup.2.2 _ (head_mem root front) _ (head_mem (tag r) back)

/-- Some records of a chain with distinct tags that are a chain from its root are its beginning. -/
theorem Linked.prefix_of_sublist (h : Linked link tag root rs) (hnodup : (root :: rs.map tag).Nodup)
    (hsub : ss <+ rs) (hss : Linked link tag root ss) : ss <+: rs := by
  induction hsub generalizing root with
  | slnil => exact nil_prefix
  | @cons ss rs r hsub ih =>
    cases ss with
    | nil => exact nil_prefix
    | cons s ss =>
      -- a later record links to a tag of the chain, which is not the root
      have hlink := h.2.link_mem (hsub.subset mem_cons_self)
      rw [hss.1] at hlink
      exact absurd hlink (nodup_cons.mp hnodup).1
  | cons_cons r hsub ih => exact cons_prefix_cons.mpr ⟨rfl, ih h.2 (nodup_cons.mp hnodup).2 hss.2⟩

/-- Some records of a chain with distinct tags are a chain if they stand next to each other in it.
-/
theorem Linked.infix_of_sublist {s : R} (h : Linked link tag root rs)
    (hnodup : (root :: rs.map tag).Nodup) (hsub : s :: ss <+ rs)
    (hss : Linked link tag (tag s) ss) : s :: ss <:+: rs := by
  induction rs generalizing root with
  | nil => cases hsub
  | cons r rs ih =>
    cases hsub with
    | cons _ hsub => exact infix_cons (ih h.2 (nodup_cons.mp hnodup).2 hsub)
    | cons_cons _ hsub =>
      have hbegin := h.2.prefix_of_sublist (nodup_cons.mp hnodup).2 hsub hss
      exact (cons_prefix_cons.mpr ⟨rfl, hbegin⟩).isInfix

/-- Equal tags have equal links, and no tag is the root. -/
structure Sealed (link tag : R → H) (root : H) (log : List R) : Prop where
  linked : Linked link tag root log
  tag_link : ∀ r ∈ log, ∀ r' ∈ log, tag r = tag r' → link r = link r'
  root_fresh : ∀ r ∈ log, tag r ≠ root

theorem Sealed.left (h : Sealed link tag root (rs ++ ss)) : Sealed link tag root rs where
  linked := (linked_append.mp h.linked).1
  tag_link r hr r' hr' := h.tag_link r (mem_append_left _ hr) r' (mem_append_left _ hr')
  root_fresh r hr := h.root_fresh r (mem_append_left _ hr)

variable {log : List R}

/-- The tags of a sealed chain are distinct, and different from the root. -/
theorem Sealed.nodup (h : Sealed link tag root log) : (root :: log.map tag).Nodup := by
  induction log using List.reverseRecOn with
  | nil => simp
  | append_singleton rs r ih =>
    have hrs := ih h.left
    -- the last record links to the end of the others, and none of them does
    have hnew : tag r ∉ rs.map tag := by
      intro hmem
      obtain ⟨r', hr', heq⟩ := mem_map.mp hmem
      have hsame := h.tag_link r' (mem_append_left _ hr') r (by simp) heq
      rw [(linked_append.mp h.linked).2.1] at hsame
      exact h.left.linked.link_ne_head hrs hr' hsame
    rw [map_append, ← cons_append, nodup_append]
    refine ⟨hrs, nodup_singleton _, fun x hx y hy => ?_⟩
    obtain rfl := mem_singleton.mp hy
    rcases mem_cons.mp hx with rfl | hx
    · exact (h.root_fresh r (by simp)).symm
    · rintro rfl
      exact hnew hx

/-- Only one record of a sealed chain links to a given tag. -/
theorem Sealed.eq_of_link_eq (h : Sealed link tag root log) {r r' : R}
    (hr : r ∈ log) (hr' : r' ∈ log) (heq : link r = link r') : r = r' := by
  have hlinks : (log.map link).Nodup := by
    rw [h.linked.map_link]
    exact h.nodup.sublist (take_sublist _ _)
  exact inj_on_of_nodup_map hlinks hr hr' heq

/-- A chain from the same root, each of whose records has the tag and the link of some record of a
sealed chain, has the tags of a beginning of that chain. -/
theorem Sealed.take_of_linked {log other : List R} (h : Sealed link tag root log)
    (hother : Linked link tag root other)
    (hmem : ∀ r' ∈ other, ∃ r ∈ log, tag r = tag r' ∧ link r = link r') :
    List.Forall₂ (fun r' r => tag r' = tag r) other (log.take other.length) := by
  induction other using List.reverseRecOn with
  | nil => exact List.Forall₂.nil
  | append_singleton rs r' ih =>
    obtain ⟨hrs, hlink', -⟩ := linked_append.mp hother
    have hpairs := ih hrs fun x hx => hmem x (mem_append_left _ hx)
    obtain ⟨r, hr, htag, hlink⟩ := hmem r' (by simp)
    -- both chains have come to the same tag, and only one record of the log links to it
    rw [head_congr hpairs] at hlink'
    have hlog : log = log.take rs.length ++ log.drop rs.length :=
      (take_append_drop rs.length log).symm
    cases hrest : log.drop rs.length with
    | nil =>
      rw [hrest, append_nil] at hlog
      rw [← hlog] at hlink'
      exact absurd (hlink.trans hlink') (h.linked.link_ne_head h.nodup hr)
    | cons s rest =>
      have hs : link s = head tag root (log.take rs.length) := by
        have hlinked := h.linked
        rw [hlog, hrest] at hlinked
        exact (linked_append.mp hlinked).2.1
      have hmems : s ∈ log := mem_of_mem_drop (hrest ▸ mem_cons_self)
      obtain rfl := h.eq_of_link_eq hr hmems (by rw [hlink, hlink', hs])
      have htake : log.take (rs ++ [r']).length = log.take rs.length ++ [r] := by
        rw [length_append, length_singleton, take_add, hrest]
        rfl
      rw [htake]
      exact rel_append hpairs (List.Forall₂.cons htag.symm List.Forall₂.nil)

end HashChain
