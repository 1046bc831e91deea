import Aflare.Go.Encoding
import Aflare.Go.JsonSize
import Aflare.Go.Lines

/-!
# JSON objects on lines

A file of JSON lines is read from its end in pieces, so that a piece may start in the middle of an
object. The objects here are flat, with strings and booleans as members. Their texts are single
lines, and no proper end of such a text is an object again: a brace inside it stands in a string,
and what follows that string is no member of an object.
-/

namespace Go

open List Option

/-! ## Printable escapes -/

variable {c : Chunk}

theorem printable_escapeChunk (hc : ∀ r, c = .rune r → IsRune r) : ∀ x ∈ escapeChunk c, 32 ≤ x := by
  rcases escapeChunk_form hc with ⟨b, -, heq, hle, -⟩ | ⟨y, t, heq, hy, ht⟩
  · simpa [heq] using hle
  · rw [heq]
    refine forall_mem_cons.mpr ⟨?_, fun x hx => (ht x hx).1⟩
    rcases hy with rfl | hy
    · decide
    · exact UInt8.le_trans (by decide) hy

theorem printable_escape (s : Str) : ∀ x ∈ escape s, 32 ≤ x := by
  intro x hx
  obtain ⟨c, hc, hx⟩ := mem_flatMap.mp hx
  exact printable_escapeChunk (rune_of_mem_chunks c hc) x hx

theorem escapeChunk_of_brace (hc : ∀ r, c = .rune r → IsRune r)
    (h : (123 : UInt8) ∈ escapeChunk c) : c = .rune [123] ∧ escapeChunk c = [123] := by
  rcases escapeChunk_form hc with ⟨b, rfl, heq, -, -⟩ | ⟨y, t, heq, hy, ht⟩
  · rw [heq, mem_singleton] at h
    subst h
    exact ⟨rfl, heq⟩
  · rw [heq] at h
    rcases mem_cons.mp h with rfl | h
    · exact absurd hy (by decide)
    · exact absurd rfl (ht _ h).2

variable {s : Str}

theorem brace_not_mem_escape (h : (123 : UInt8) ∉ s) : (123 : UInt8) ∉ escape s := by
  induction s using chunk_induction with
  | nil => simp [escape]
  | rune r t hr ih =>
    simp only [escape, chunks_rune_append hr, flatMap_cons, mem_append, not_or] at ih ⊢
    refine ⟨fun hmem => ?_, ih fun ht => h (mem_append_right _ ht)⟩
    obtain ⟨heq, -⟩ := escapeChunk_of_brace (c := .rune r) (by rintro q ⟨rfl⟩; exact hr) hmem
    cases heq
    exact h (by simp)
  | bad b t hb ih =>
    simp only [escape, chunks_of_none hb, flatMap_cons, mem_append, not_or] at ih ⊢
    exact ⟨by simp only [escapeChunk]; decide, ih fun ht => h (mem_cons_of_mem _ ht)⟩

/-! ## A brace inside a string -/

private theorem append_eq_append_cons {x w p u : Str} {a : UInt8} (h : x ++ w = p ++ a :: u) :
    (∃ p', w = p' ++ a :: u) ∨ ∃ q, x = p ++ a :: q ∧ u = q ++ w := by
  rcases append_eq_append_iff.mp h with ⟨p', -, hrest⟩ | ⟨q, rfl, hrest⟩
  · exact .inl ⟨p', hrest⟩
  · cases q with
    | nil => exact .inl ⟨[], hrest.symm⟩
    | cons y q =>
      obtain ⟨rfl, rfl⟩ := cons.inj hrest
      exact .inr ⟨q, rfl, rfl⟩

variable {cs : List Chunk} (hcs : ∀ c ∈ cs, ∀ r, c = .rune r → IsRune r)

include hcs

/-- What follows a brace in written pieces is written pieces again. -/
theorem flatMap_escapeChunk_of_brace {p u : Str} (h : cs.flatMap escapeChunk = p ++ 123 :: u) :
    ∃ cs', cs' <:+ cs ∧ u = cs'.flatMap escapeChunk := by
  induction cs generalizing p with
  | nil => simp at h
  | cons c cs ih =>
    rw [flatMap_cons] at h
    rw [forall_mem_cons] at hcs
    obtain ⟨p', hrest⟩ | ⟨q, hchunk, hrest⟩ := append_eq_append_cons h
    · obtain ⟨cs', hsuffix, hu⟩ := ih hcs.2 hrest
      exact ⟨cs', hsuffix.trans (suffix_cons c cs), hu⟩
    · -- the brace is the whole of this piece
      obtain ⟨-, hbrace⟩ := escapeChunk_of_brace hcs.1 (by simp [hchunk])
      rw [hbrace, eq_comm, append_eq_singleton_iff] at hchunk
      simp only [cons_ne_nil, and_false, or_false, cons.injEq, true_and] at hchunk
      exact ⟨cs, suffix_cons c cs, by rw [hrest, hchunk.2, nil_append]⟩

/-- After white space, written pieces and a closing quote go on with that quote, or with another
character before it. -/
theorem skipSpace_flatMap_escapeChunk (rest : Str) :
    Value.skipSpace (cs.flatMap escapeChunk ++ 34 :: rest) = 34 :: rest ∨
      ∃ y t, Value.skipSpace (cs.flatMap escapeChunk ++ 34 :: rest) = y :: t ∧ y ≠ 34 ∧ 34 ∈ t := by
  induction cs with
  | nil => exact Or.inl (Value.skipSpace_cons (by decide) rest)
  | cons c cs ih =>
    have hlater : (34 : UInt8) ∈ cs.flatMap escapeChunk ++ 34 :: rest := by simp
    rw [flatMap_cons, append_assoc]
    rcases escapeChunk_form (hcs c mem_cons_self) with ⟨b, -, heq, -, hne⟩ | ⟨y, t, heq, hy, -⟩
    · rw [heq, singleton_append]
      by_cases hb : isSpace b = true
      · have hblank : Blank [b] := by simpa [Blank] using hb
        have hskip := Value.skipSpace_blank_append hblank (cs.flatMap escapeChunk ++ 34 :: rest)
        rw [singleton_append] at hskip
        rw [hskip]
        exact ih (forall_mem_of_forall_mem_cons hcs)
      · exact Or.inr ⟨b, _, Value.skipSpace_cons (by simpa using hb) _, hne, hlater⟩
    · have hspace : isSpace y = false := by
        rcases hy with rfl | hy
        · decide
        · simp only [isSpace, Bool.or_eq_false_iff, decide_eq_false_iff_not]
          refine ⟨⟨⟨?_, ?_⟩, ?_⟩, ?_⟩ <;>
            · rintro rfl
              exact absurd hy (by decide)
      rw [heq, cons_append]
      refine Or.inr ⟨y, _, Value.skipSpace_cons hspace _, ?_, mem_append_right _ hlater⟩
      rintro rfl
      exact absurd hy (by decide)

/-- No object can be read after a brace that stands here. -/
def NoObject (u : Str) : Prop :=
  ∀ value v r, Value.readObject value u = some (v, r) → Value.skipSpace r ≠ []

/-- The first byte of a text can neither be white space nor follow the name of a member. -/
def StartsWord : Str → Prop
  | [] => False
  | x :: _ => isSpace x = false ∧ x ≠ 58

instance : DecidablePred StartsWord
  | [] => inferInstanceAs (Decidable False)
  | _ :: _ => inferInstanceAs (Decidable (_ ∧ _))

/-- A brace inside a string is followed by no member of an object: the next quote closes the
string, and after the comma and the quote that follow there is no colon. -/
theorem noObject_escape {w : Str} (hw : StartsWord w) :
    NoObject (cs.flatMap escapeChunk ++ 34 :: 44 :: 34 :: w) := by
  intro value v r hread
  obtain - | ⟨x, w⟩ := w
  · exact hw.elim
  have hstring : Value.readMember value (cs.flatMap escapeChunk ++ 34 :: 44 :: 34 :: x :: w) =
      none ∧
      ∀ t, Value.skipSpace (cs.flatMap escapeChunk ++ 34 :: 44 :: 34 :: x :: w) = 125 :: t →
        34 ∈ t := by
    rcases skipSpace_flatMap_escapeChunk hcs (44 :: 34 :: x :: w) with hskip | ⟨y, t, hskip, hy, ht⟩
    · have hcomma : readString (44 :: 34 :: x :: w) = some ([44], x :: w) :=
        readString_quote [44] (x :: w)
      have hx : Value.skipSpace (x :: w) = x :: w := Value.skipSpace_cons hw.1 w
      refine ⟨?_, fun t ht => by rw [hskip] at ht; cases ht⟩
      simp [Value.readMember, hskip, hcomma, hx, hw.2]
    · refine ⟨by simp [Value.readMember, hskip, hy], fun t' ht' => ?_⟩
      rw [hskip] at ht'
      obtain ⟨-, rfl⟩ := cons.inj ht'
      exact ht
  obtain ⟨hmember, hclose⟩ := hstring
  generalize hs : cs.flatMap escapeChunk ++ 34 :: 44 :: 34 :: x :: w = s at hread hmember hclose
  simp only [Value.readObject] at hread
  split at hread
  · cases hread
  · rename_i b t hskip
    split_ifs at hread with hb
    · -- an empty object, but the closing quote is still to come
      subst hb
      obtain ⟨-, rfl⟩ := Prod.mk.inj (some.inj hread)
      intro hnil
      have hblank := dropWhile_eq_nil_iff.mp hnil 34 (hclose t hskip)
      exact absurd hblank (by decide)
    · have hmembers : Value.readMembers value s.length s = none := by
        cases s.length with
        | zero => rfl
        | succ n => simp [Value.readMembers, hmember]
      simp [hmembers] at hread

omit hcs

/-! ## Plain members -/

variable (m : Str × Value)

theorem renderMembers_compact_cons (members : List (Str × Value)) :
    Value.renderMembers .compact 0 (m :: members) = 44 :: (quote m.1 ++
      58 :: (m.2.render .compact 1 ++ Value.renderMembers .compact 0 members)) := by
  rfl

theorem marshal_obj_cons (members : List (Str × Value)) :
    (Value.obj (m :: members)).marshal = 123 :: (quote m.1 ++
      58 :: (m.2.render .compact 1 ++ Value.renderMembers .compact 0 members)) := by
  rfl

/-- A member name that is written without a brace and does not start like the continuation of an
object. -/
def PlainName (name : Str) : Prop := (123 : UInt8) ∉ escape name ∧ StartsWord (escape name)
  deriving Decidable

/-- Members of plain names that are booleans or strings. The last one has no brace. -/
def PlainMembers : List (Str × Value) → Prop
  | [] => True
  | (name, v) :: members =>
    PlainName name ∧
      ((∃ b, v = .bool b) ∨ ∃ s, v = .str s ∧ (members = [] → (123 : UInt8) ∉ escape s)) ∧
      PlainMembers members

variable {members : List (Str × Value)} {name : Str}

theorem PlainMembers.cons_str (hname : PlainName name) (hne : members ≠ [])
    (h : PlainMembers members) : PlainMembers ((name, .str s) :: members) :=
  ⟨hname, Or.inr ⟨s, rfl, fun hnil => absurd hnil hne⟩, h⟩

theorem PlainMembers.cons_bool {b : Bool} (hname : PlainName name) (h : PlainMembers members) :
    PlainMembers ((name, .bool b) :: members) :=
  ⟨hname, Or.inl ⟨b, rfl⟩, h⟩

theorem PlainMembers.omitEmpty_append {x : Str}
    (hname : PlainName name) (hx : members = [] → (123 : UInt8) ∉ escape x)
    (h : PlainMembers members) : PlainMembers (omitEmpty name x ++ members) := by
  unfold omitEmpty
  split
  · exact h
  · exact ⟨hname, Or.inr ⟨x, rfl, hx⟩, h⟩

/-- After any brace in this text no object can be read. -/
def Braceless (w : Str) : Prop := ∀ p u, w = p ++ 123 :: u → NoObject u

theorem braceless_append {x w : Str} (hx : (123 : UInt8) ∉ x) (hw : Braceless w) :
    Braceless (x ++ w) := by
  intro p u h
  obtain ⟨p', hrest⟩ | ⟨q, rfl, -⟩ := append_eq_append_cons h
  · exact hw p' u hrest
  · exact absurd (by simp) hx

/-- A string value is braceless if another member follows, or if the string is. -/
theorem braceless_string {rest : Str} (hrest : Braceless rest)
    (h : (∃ w, rest = 44 :: 34 :: w ∧ StartsWord w) ∨ (123 : UInt8) ∉ escape s) :
    Braceless (quote s ++ rest) := by
  have hsplit : quote s ++ rest = [34] ++ (escape s ++ ([34] ++ rest)) := by simp [quote]
  rw [hsplit]
  refine braceless_append (by decide) ?_
  have hquote : Braceless ([34] ++ rest) := braceless_append (by decide) hrest
  rcases h with ⟨w, rfl, hw⟩ | hs
  · intro p u hpu
    obtain ⟨p', hlater⟩ | ⟨q, hbody, rfl⟩ := append_eq_append_cons hpu
    · exact hquote p' u hlater
    · -- the brace lies in the string itself
      obtain ⟨cs, hsuffix, rfl⟩ := flatMap_escapeChunk_of_brace rune_of_mem_chunks hbody
      exact noObject_escape (fun c hc => rune_of_mem_chunks c (hsuffix.subset hc)) hw
  · exact braceless_append hs hquote

private theorem brace_not_mem_quote (h : PlainName name) : (123 : UInt8) ∉ quote name := by
  simp only [quote, mem_cons, mem_append, not_mem_nil, not_or, or_false]
  exact ⟨by decide, h.1, by decide⟩

private theorem renderMembers_startsWord (h : PlainMembers members) (hne : members ≠ []) :
    ∃ w, Value.renderMembers .compact 0 members = 44 :: 34 :: w ∧ StartsWord w := by
  match members, h with
  | [], _ => exact absurd rfl hne
  | (name, v) :: members, ⟨hname, _, _⟩ =>
    have hstart := hname.2
    obtain ⟨x, t, hxt⟩ := exists_cons_of_ne_nil fun hnil => (hnil ▸ hstart : StartsWord [])
    rw [hxt] at hstart
    refine ⟨x :: (t ++ [34] ++ 58 :: (v.render .compact 1 ++
      Value.renderMembers .compact 0 members)), ?_, hstart⟩
    simp [renderMembers_compact_cons, quote, hxt]

variable {v : Value}

theorem braceless_renderMembers (h : PlainMembers members) :
    Braceless (Value.renderMembers .compact 0 members) := by
  induction members with
  | nil =>
    intro p u hpu
    have hmem : (123 : UInt8) ∈ Value.renderMembers .compact 0 [] := hpu ▸ by simp
    simp [Value.renderMembers, Layout.compact] at hmem
  | cons m members ih =>
    obtain ⟨hname, hv, hmembers⟩ := h
    rw [renderMembers_compact_cons, ← singleton_append]
    refine braceless_append (by decide) (braceless_append (brace_not_mem_quote hname) ?_)
    rw [← singleton_append]
    refine braceless_append (by decide) ?_
    rcases hv with ⟨b, hb⟩ | ⟨s, hs, hlast⟩
    · rw [hb]
      refine braceless_append ?_ (ih hmembers)
      cases b <;> simp only [Value.render, if_true, if_false, Bool.false_eq_true] <;> decide
    · rw [hs]
      refine braceless_string (ih hmembers) ?_
      by_cases hne : members = []
      · exact Or.inr (hlast hne)
      · exact Or.inl (renderMembers_startsWord hmembers hne)

/-! ## Proper ends of an object -/

private theorem skipSpace_split (s : Str) : ∃ gap, Blank gap ∧ s = gap ++ Value.skipSpace s :=
  ⟨s.takeWhile isSpace, fun _ hb => mem_takeWhile_imp hb, (takeWhile_append_dropWhile).symm⟩

section

variable {inner : Option Value.Reader} {r : Str}

/-- An object is read only from a text that starts with a brace. -/
private theorem readWith_obj (h : Value.readWith inner s = some (.obj members, r)) :
    ∃ value t, Value.skipSpace s = 123 :: t ∧
      Value.readObject value t = some (.obj members, r) := by
  grind [Value.readWith, Value.readArray, map_eq_some_iff, bind_eq_some_iff]

/-- `null` is read only where that word stands. -/
private theorem readWith_null (h : Value.readWith inner s = some (.null, r)) :
    Value.skipSpace s = str "null" ++ r := by
  have hword : ∀ t, Value.readWord (str "null") t = some r → t = str "null" ++ r := by
    intro t ht
    simp only [Value.readWord] at ht
    split_ifs at ht with htake
    cases ht
    conv_lhs => rw [← take_append_drop (str "null").length t, htake]
  grind [Value.readWith, Value.readArray, Value.readObject, map_eq_some_iff, bind_eq_some_iff]

end

private theorem not_null_of_brace {gap r u : Str} (hr : Value.skipSpace r = []) :
    gap ++ (str "null" ++ r) ≠ u ++ [125] := by
  intro h
  rcases eq_nil_or_concat r with rfl | ⟨r', b, rfl⟩
  · have hlast := congrArg getLast? h
    rw [show str "null" = str "nul" ++ [108] from rfl] at hlast
    simp only [append_nil, ← append_assoc, getLast?_append, getLast?_singleton, some_or] at hlast
    exact absurd hlast (by decide)
  · have hblank := dropWhile_eq_nil_iff.mp hr b (by simp)
    have hlast := congrArg getLast? h
    simp only [← append_assoc, concat_eq_append, getLast?_append,
      getLast?_singleton, some_or] at hlast
    rw [some.inj hlast] at hblank
    exact absurd hblank (by decide)

/-- A proper end of the text of a plain object, up to its closing brace, is not decoded as a
struct. -/
theorem decodeStruct_suffix {S : Type} (fields : List (StructField S)) (zero : S)
    (h : PlainMembers members) {a u : Str} (ha : a ≠ [])
    (hsuffix : (Value.obj members).marshal = a ++ (u ++ [125])) :
    (Value.parse (u ++ [125])).bind (decodeStruct fields zero) = none := by
  cases hparse : Value.parse (u ++ [125]) with
  | none => rfl
  | some v =>
    simp only [Value.parse] at hparse
    split at hparse
    · cases hparse
    rename_i v' r hread
    split_ifs at hparse with hend
    obtain rfl := some.inj hparse
    have hwith : Value.readWith (some (Value.read 9999)) (u ++ [125]) = some (v', r) := hread
    obtain ⟨gap, hgap, heq⟩ := skipSpace_split (u ++ [125])
    cases v' with
    | null => exact absurd (heq.trans (by rw [readWith_null hwith])).symm (not_null_of_brace hend)
    | obj ms =>
      -- the brace with which the end starts stands inside the whole text
      obtain ⟨value, t, hskip, hobject⟩ := readWith_obj hwith
      obtain ⟨b, a, rfl⟩ := exists_cons_of_ne_nil ha
      cases members with
      | nil =>
        rw [heq, hskip] at hsuffix
        have hmem : (123 : UInt8) ∈ [125] := by
          have htail := congrArg tail hsuffix
          simp only [Value.marshal, Value.render, tail_cons, cons_append] at htail
          rw [htail]
          simp
        exact absurd hmem (by decide)
      | cons m members =>
        rw [marshal_obj_cons, heq, hskip, cons_append, ← append_assoc] at hsuffix
        have hbody := braceless_renderMembers h (44 :: (a ++ gap)) t
        rw [renderMembers_compact_cons, (cons.inj hsuffix).2] at hbody
        exact absurd hend (hbody rfl _ _ _ hobject)
    | bool b | num lit | str s | arr xs => rfl

/-! ## Printable texts -/

private theorem printable_quote (s : Str) : ∀ x ∈ quote s, 32 ≤ x := by
  simp only [quote, forall_mem_cons, forall_mem_append]
  exact ⟨by decide, printable_escape s, by decide, by simp⟩

private theorem printable_renderMembers
    (h : PlainMembers members) : ∀ x ∈ Value.renderMembers .compact 0 members, 32 ≤ x := by
  induction members with
  | nil => simp [Value.renderMembers, Layout.compact]
  | cons m members ih =>
    have hv : ∀ x ∈ m.2.render .compact 1, 32 ≤ x := by
      rcases h.2.1 with ⟨b, hb⟩ | ⟨s, hs, -⟩
      · rw [hb]
        cases b <;> simp only [Value.render, if_true, if_false, Bool.false_eq_true] <;>
          decide
      · rw [hs]
        exact printable_quote s
    rw [renderMembers_compact_cons]
    simp only [forall_mem_append, forall_mem_cons]
    exact ⟨by decide, printable_quote m.1, by decide, hv, ih h.2.2⟩

theorem printable_marshal (h : PlainMembers members) :
    ∀ x ∈ (Value.obj members).marshal, 32 ≤ x := by
  cases members with
  | nil => simp [Value.marshal, Value.render]
  | cons m members =>
    exact forall_mem_cons.mpr ⟨by decide, (forall_mem_cons.mp (printable_renderMembers h)).2⟩

private theorem renderMembers_ends (members : List (Str × Value)) :
    ∃ body, Value.renderMembers .compact 0 members = body ++ [125] := by
  induction members with
  | nil => exact ⟨[], by simp [Value.renderMembers, Layout.compact]⟩
  | cons m members ih =>
    obtain ⟨body, hbody⟩ := ih
    exact ⟨44 :: (quote m.1 ++ 58 :: (m.2.render .compact 1 ++ body)), by
      simp [renderMembers_compact_cons, hbody]⟩

theorem marshal_obj_braces (members : List (Str × Value)) :
    ∃ body, (Value.obj members).marshal = 123 :: (body ++ [125]) := by
  cases members with
  | nil => exact ⟨[], by simp [Value.marshal, Value.render]⟩
  | cons m members =>
    obtain ⟨body, hbody⟩ := renderMembers_ends members
    exact ⟨quote m.1 ++ 58 :: (m.2.render .compact 1 ++ body), by simp [marshal_obj_cons, hbody]⟩

/-! ## The length of a text -/

/-- The length of a member in the text of an object, with what separates it from the next one. -/
def memberLength (m : Str × Value) : ℕ := (quote m.1).length + (m.2.render .compact 1).length + 2

private theorem length_renderMembers (members : List (Str × Value)) :
    (Value.renderMembers .compact 0 members).length = (members.map memberLength).sum + 1 := by
  induction members with
  | nil => simp [Value.renderMembers, Layout.compact]
  | cons m members ih =>
    simp only [renderMembers_compact_cons, length_cons, length_append, ih,
      map_cons, sum_cons, memberLength]
    omega

theorem length_marshal_obj (hne : members ≠ []) :
    (Value.obj members).marshal.length = (members.map memberLength).sum + 1 := by
  cases members with
  | nil => exact absurd rfl hne
  | cons m members => exact length_renderMembers (m :: members)

/-- A string is not written at greater length after a round trip, and at the same length only if
it is valid UTF-8. -/
theorem length_escape_coerce (s : Str) :
    (escape (coerce s)).length ≤ (escape s).length ∧
      ((escape (coerce s)).length = (escape s).length → ValidUtf8 s) := by
  induction s using chunk_induction with
  | nil => exact ⟨le_rfl, fun _ => validUtf8_nil⟩
  | rune r t hr ih =>
    rw [coerce_rune_append hr]
    simp only [escape, chunks_rune_append hr, flatMap_cons, length_append] at ih ⊢
    refine ⟨by omega, fun h => ?_⟩
    obtain ⟨rs, hrs, rfl⟩ := ih.2 (by omega)
    exact ⟨r :: rs, forall_mem_cons.mpr ⟨hr, hrs⟩, rfl⟩
  | bad b t hb ih =>
    rw [coerce_bad hb]
    simp only [escape, chunks_rune_append isRune_replacement, chunks_of_none hb, flatMap_cons,
      length_append] at ih ⊢
    have hreplacement : (escapeChunk (.rune replacement)).length = 3 := rfl
    have hbad : (escapeChunk (.bad b)).length = 6 := rfl
    exact ⟨by omega, by omega⟩

theorem escape_append (h : ValidUtf8 s) (t : Str) : escape (s ++ t) = escape s ++ escape t := by
  obtain ⟨rs, hrs, rfl⟩ := h
  induction rs with
  | nil => rfl
  | cons r rs ih =>
    have hr := hrs r mem_cons_self
    have hrest := ih (forall_mem_of_forall_mem_cons hrs)
    simp only [escape] at hrest
    simp [escape, flatten_cons, append_assoc, chunks_rune_append hr, flatMap_cons, hrest]

theorem coerce_eq_nil_iff : coerce s = [] ↔ s = [] := by
  induction s using chunk_induction with
  | nil => exact ⟨fun _ => rfl, fun _ => rfl⟩
  | rune r t hr _ => simp [coerce_rune_append hr, hr.ne_nil]
  | bad b t hb _ => simp [coerce_bad hb, replacement]

/-- The length of a string member that may be left out. -/
def omitLength (name x : Str) : ℕ := ((omitEmpty name x).map memberLength).sum

/-- The same as `length_escape_coerce`, for a member that may be left out. -/
theorem omitLength_coerce (name x : Str) :
    omitLength name (coerce x) ≤ omitLength name x ∧
      (omitLength name (coerce x) = omitLength name x → ValidUtf8 x) := by
  by_cases hx : x = []
  · subst hx
    exact ⟨le_rfl, fun _ => validUtf8_nil⟩
  · have hx' : coerce x ≠ [] := fun h => hx (coerce_eq_nil_iff.mp h)
    have hescape := length_escape_coerce x
    simp only [omitLength, omitEmpty, if_neg hx, if_neg hx', map_cons, map_nil,
      sum_cons, sum_nil, memberLength, Value.render, quote, length_cons,
      length_append, length_nil]
    exact ⟨by omega, fun h => hescape.2 (by omega)⟩

end Go
