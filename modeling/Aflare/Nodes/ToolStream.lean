import Aflare.Go.Lines
import Aflare.Go.Maps

/-!
# Streamed tool calls

A provider streams the answer of a model as lines of data. The content and the arguments of every
tool call arrive in fragments, and a call is known by its index. The loop puts them together until
it meets the end marker or the scanner stops, and the scanner stops for an error as well.
-/

namespace Nodes

open Go List

structure ToolCall where
  index : ℤ
  id : Str
  type : Str
  name : Str
  arguments : Str

structure ChoiceDelta where
  content : Str
  toolCalls : List ToolCall

/-- What a provider delivers before its body ends, and whether the body ends with an error. -/
structure StreamBody where
  data : Str
  failed : Bool

/-- The variables of the loop and what it has handed to `onChunk`. -/
structure StreamState where
  fullContent : Str
  chunks : List Str
  toolCallAccum : GoMap ℤ ToolCall

/-- The longest line the scanner takes. -/
def streamLineLimit : ℕ := 1024 * 1024

def dataPrefix : Str := str "data: "

def doneMark : Str := str "[DONE]"

/-- The fragment of a call that is known already. -/
def ToolCall.update (existing tc : ToolCall) : ToolCall :=
  { existing with
    id := if tc.id ≠ [] then tc.id else existing.id
    name := if tc.name ≠ [] then tc.name else existing.name
    arguments := existing.arguments ++ tc.arguments }

def accumulate (accum : GoMap ℤ ToolCall) (tc : ToolCall) : GoMap ℤ ToolCall :=
  match accum[tc.index]? with
  | some existing => accum.insert tc.index (existing.update tc)
  | none => accum.insert tc.index tc

variable (st : StreamState)

def StreamState.add (delta : ChoiceDelta) : StreamState where
  fullContent := st.fullContent ++ delta.content
  chunks := if delta.content ≠ [] then st.chunks ++ [delta.content] else st.chunks
  toolCallAccum := delta.toolCalls.foldl accumulate st.toolCallAccum

variable (decode : Str → Option (List ChoiceDelta))

/-- The loop over the lines of the scanner. `decode` gives the choices of a line of data. -/
def streamLoop (st : StreamState) : List Str → StreamState
  | [] => st
  | line :: lines =>
    if hasPrefix line dataPrefix then
      if trimPrefix line dataPrefix = doneMark then st
      else
        match decode (trimPrefix line dataPrefix) with
        | none | some [] => streamLoop st lines
        | some (delta :: _) => streamLoop (st.add delta) lines
    else streamLoop st lines

/-- `OpenAICompatibleNode.CallWithToolsStream` once the provider has answered with status 200: the
content and the tool calls of the response. -/
def callWithToolsStream (body : StreamBody) : Except Str (Str × List ToolCall) :=
  let st := streamLoop decode ⟨[], [], ∅⟩ (scan streamLineLimit body.data).1
  .ok (st.fullContent, st.toolCallAccum.toList.map Prod.snd)

/-! ## What a stream says -/

/-- The data of a line that carries some. -/
def payload (line : Str) : Option Str :=
  if hasPrefix line dataPrefix then some (trimPrefix line dataPrefix) else none

/-- The deltas of a list of lines, up to the end marker. -/
def deltas (lines : List Str) : List ChoiceDelta :=
  ((lines.filterMap payload).takeWhile (· ≠ doneMark)).filterMap fun data =>
    (decode data).bind head?

def StreamBody.lines (body : StreamBody) : List Str := (fileLines body.data).map dropCR

/-- The stream is read to its end marker or to its end. -/
def StreamBody.CompletelyRead (body : StreamBody) : Prop :=
  some doneMark ∈ (scan streamLineLimit body.data).1.map payload ∨
    (scan streamLineLimit body.data).2 = false ∧ body.failed = false
  deriving Decidable

variable (ds : List ChoiceDelta)

def callFragments : List ToolCall := ds.flatMap ChoiceDelta.toolCalls

/-- The arguments of the call with the given index. -/
def argumentsOf (fragments : List ToolCall) (i : ℤ) : Str :=
  (fragments.filter (·.index = i)).flatMap ToolCall.arguments

/-- A response holds all that the deltas say: their content, and one call for every index. -/
structure HoldsAll (ds : List ChoiceDelta) (content : Str) (calls : List ToolCall) : Prop where
  content_eq : content = ds.flatMap ChoiceDelta.content
  ascending : calls.Pairwise (·.index < ·.index)
  calls_iff : ∀ i args, (∃ call ∈ calls, call.index = i ∧ call.arguments = args) ↔
    (∃ f ∈ callFragments ds, f.index = i) ∧ args = argumentsOf (callFragments ds) i

/-! ## The loop -/

theorem streamLoop_eq (lines : List Str) :
    streamLoop decode st lines = (deltas decode lines).foldl StreamState.add st := by
  induction lines generalizing st with
  | nil => rfl
  | cons line lines ih =>
    by_cases hdata : hasPrefix line dataPrefix
    · by_cases hdone : trimPrefix line dataPrefix = doneMark
      · simp [streamLoop, deltas, payload, hdata, hdone]
      · rcases hdecode : decode (trimPrefix line dataPrefix) with - | - | ⟨delta, rest⟩ <;>
          simp [streamLoop, deltas, payload, hdata, hdone, hdecode, ih]
    · simp [streamLoop, deltas, payload, hdata, ih]

theorem fullContent_foldl :
    (ds.foldl StreamState.add st).fullContent =
      st.fullContent ++ ds.flatMap ChoiceDelta.content := by
  induction ds generalizing st with
  | nil => simp
  | cons d ds ih => simp [ih, StreamState.add]

theorem toolCallAccum_foldl :
    (ds.foldl StreamState.add st).toolCallAccum =
      (callFragments ds).foldl accumulate st.toolCallAccum := by
  induction ds generalizing st with
  | nil => rfl
  | cons d ds ih => simp [ih, StreamState.add, callFragments]

/-- The accumulator holds the calls of the fragments read so far. -/
def Accumulated (fragments : List ToolCall) (accum : GoMap ℤ ToolCall) : Prop :=
  ∀ i, accum[i]?.map (fun c => (c.index, c.arguments)) =
    if ∃ f ∈ fragments, f.index = i then some (i, argumentsOf fragments i) else none

variable {fragments : List ToolCall} {accum : GoMap ℤ ToolCall}

theorem Accumulated.accumulate (h : Accumulated fragments accum) (tc : ToolCall) :
    Accumulated (fragments ++ [tc]) (accumulate accum tc) := by
  intro i
  have hbefore := h i
  by_cases hi : tc.index = i
  · subst hi
    cases hold : accum[tc.index]? with
    | none =>
      have hnone : argumentsOf fragments tc.index = [] := by
        simp [argumentsOf, hold] at hbefore ⊢
        grind
      simp_all [Nodes.accumulate, argumentsOf]
    | some existing =>
      simp_all [Nodes.accumulate, argumentsOf, ToolCall.update]
  · have hsame : (Nodes.accumulate accum tc)[i]? = accum[i]? := by
      unfold Nodes.accumulate
      split <;> simp [Std.ExtTreeMap.getElem?_insert, hi]
    rw [hsame, hbefore]
    simp [argumentsOf, hi]

theorem accumulated_foldl (fragments : List ToolCall) :
    Accumulated fragments (fragments.foldl accumulate ∅) := by
  induction fragments using reverseRecOn with
  | nil => intro i; simp
  | append_singleton fragments tc ih => simpa using ih.accumulate tc

/-- The accumulated calls hold all fragments of the deltas. -/
theorem holdsAll_foldl :
    HoldsAll ds (ds.foldl StreamState.add ⟨[], [], ∅⟩).fullContent
      ((ds.foldl StreamState.add ⟨[], [], ∅⟩).toolCallAccum.toList.map Prod.snd) := by
  have hacc := accumulated_foldl (callFragments ds)
  rw [fullContent_foldl, toolCallAccum_foldl]
  generalize (callFragments ds).foldl accumulate ∅ = accum at hacc
  have hkey : ∀ e ∈ accum.toList, e.2.index = e.1 := by
    intro e he
    have hentry := hacc e.1
    rw [Std.ExtTreeMap.mem_toList_iff_getElem?_eq_some.mp he] at hentry
    split_ifs at hentry
    · exact congrArg Prod.fst (Option.some.inj hentry)
    · cases hentry
  have hcall : ∀ i args, (∃ call ∈ accum.toList.map Prod.snd, call.index = i ∧
      call.arguments = args) ↔ accum[i]?.map (fun c => (c.index, c.arguments)) =
        some (i, args) := by
    intro i args
    constructor
    · rintro ⟨_, hmem, rfl, rfl⟩
      obtain ⟨e, he, rfl⟩ := mem_map.mp hmem
      rw [hkey e he, Std.ExtTreeMap.mem_toList_iff_getElem?_eq_some.mp he]
      simp [hkey e he]
    · intro h
      obtain ⟨call, hcall, heq⟩ := Option.map_eq_some_iff.mp h
      exact ⟨call, mem_map.mpr ⟨(i, call),
        Std.ExtTreeMap.mem_toList_iff_getElem?_eq_some.mpr hcall, rfl⟩, by simpa using heq⟩
  refine ⟨by simp, ?_, fun i args => ?_⟩
  · rw [pairwise_map]
    refine (Std.ExtTreeMap.ordered_keys_toList (t := accum)).imp_of_mem fun {e e'} he he' hlt => ?_
    rw [hkey e he, hkey e' he']
    exact compare_lt_iff_lt.mp hlt
  · rw [hcall, hacc i]
    split_ifs with h <;> simp [h, @eq_comm _ args]

/-! ## Complete responses -/

theorem deltas_scan {body : StreamBody} (h : body.CompletelyRead) :
    deltas decode (scan streamLineLimit body.data).1 = deltas decode body.lines := by
  set short : Str → Bool := fun line => line.length < streamLineLimit
  have hlines : body.lines = (scan streamLineLimit body.data).1 ++
      ((fileLines body.data).dropWhile short).map dropCR := by
    rw [scan, ← map_append, takeWhile_append_dropWhile, StreamBody.lines]
  rw [hlines, deltas, deltas, filterMap_append, takeWhile_append]
  split_ifs with hall
  · -- no end marker is met: the scanner has taken every line
    have hself := takeWhile_prefix _ |>.eq_of_length hall
    have hshort := (h.resolve_left fun hdone => by
      obtain ⟨line, hline, hmark⟩ := mem_map.mp hdone
      simpa using takeWhile_eq_self_iff.mp hself _ (mem_filterMap.mpr ⟨line, hline, hmark⟩)).1
    have hrest : (fileLines body.data).dropWhile short = [] := by
      simpa [scan, short] using hshort
    rw [hrest, hself]
    simp
  · rfl

/-- A response is returned only for a stream that is completely read, and holds all of it. -/
def ReturnsComplete (body : StreamBody) : Prop :=
  ∀ response, callWithToolsStream decode body = .ok response →
    body.CompletelyRead ∧ HoldsAll (deltas decode body.lines) response.1 response.2

theorem returnsComplete_iff (body : StreamBody) :
    ReturnsComplete decode body ↔ body.CompletelyRead := by
  refine ⟨fun h => (h _ rfl).1, fun h response hresponse => ⟨h, ?_⟩⟩
  cases hresponse
  rw [← deltas_scan decode h, streamLoop_eq]
  exact holdsAll_foldl _

/-- A body that fails after its first line. -/
theorem not_returnsComplete :
    ¬ ReturnsComplete (fun _ => some [⟨str "a", []⟩]) ⟨str "data: 1\n", true⟩ := by
  intro h
  exact absurd (h _ rfl).1 (by decide)

end Nodes
