import Console.Proofs.Text.Utf8
import Console.Reader
import Mathlib.Data.List.DropRight

/-!
# Reading line by line

A reader goes through its bytes segment by segment: each segment ends at a line feed, but for the
last, which may have none.

* `Segments`: some bytes, cut behind each line feed;
* `Reader.after`, `answer`: the reader after some calls, and what a call answers for a segment;
* `readLine_append`, `readLine_rest`: one call;
* **`readLine_segments`**: one segment a call, in order, then the end of the input for ever;
* **`lines_joined`**: lines that are written with their ends read back.
-/

namespace Console

open Text

/-- Some bytes, cut behind each of their line feeds. What is left behind the last one is a segment
too, unless it is empty. -/
inductive Segments : List UInt8 → List (List UInt8) → Prop
  | nil : Segments [] []
  | rest {body : List UInt8} : body ≠ [] → Reader.lineFeed ∉ body → Segments body [body]
  | cons {body bytes : List UInt8} {segments : List (List UInt8)} : Reader.lineFeed ∉ body →
      Segments bytes segments →
      Segments (body ++ Reader.lineFeed :: bytes) ((body ++ [Reader.lineFeed]) :: segments)

namespace Segments

variable {bytes : List UInt8} {segments : List (List UInt8)}

theorem flatten (h : Segments bytes segments) : segments.flatten = bytes := by
  induction h with
  | nil => rfl
  | rest => simp
  | cons _ _ ih => rw [List.flatten_cons, ih, List.append_assoc, List.singleton_append]

theorem exists_segments (bytes : List UInt8) : ∃ segments, Segments bytes segments := by
  induction bytes with
  | nil => exact ⟨[], .nil⟩
  | cons b bytes ih =>
    obtain ⟨segments, h⟩ := ih
    by_cases hb : b = Reader.lineFeed
    · subst hb
      exact ⟨_, .cons (List.not_mem_nil) h⟩
    · have hne : Reader.lineFeed ≠ b := Ne.symm hb
      cases h with
      | nil => exact ⟨_, .rest (List.cons_ne_nil b []) (by simp [hne])⟩
      | rest _ hbody =>
        have hlonger := List.not_mem_cons_of_ne_of_not_mem hne hbody
        exact ⟨_, .rest (List.cons_ne_nil b _) hlonger⟩
      | cons hbody hrest =>
        have hlonger := List.not_mem_cons_of_ne_of_not_mem hne hbody
        exact ⟨_, .cons hlonger hrest⟩

end Segments

namespace Reader

variable {body bytes : List UInt8} {segments : List (List UInt8)} {history : History}
  {text : String}

/-- The reader after some calls. -/
def after (r : Reader) : ℕ → Reader
  | 0 => r
  | n + 1 => r.readLine.2.after n

/-- A text without the line feed at its end, and without the carriage returns before it. -/
def withoutEnd (text : String) : String :=
  let cs := text.toList
  String.ofList ((if cs.getLast? = some '\n' then cs.dropLast else cs).rdropWhile (· = '\r'))

/-- What a call answers for a segment, or where there are no more segments. -/
def answer : Option (List UInt8) → Except IoFailure (Option String)
  | none => .ok none
  | some segment =>
    match Utf8.decode segment with
    | some text => .ok (some (withoutEnd text))
    | none => .error .invalidText

/-! ## One call -/

theorem rdropWhile_congr {p q : Char → Bool} {cs : List Char} (h : ∀ c ∈ cs, p c = q c) :
    cs.rdropWhile p = cs.rdropWhile q := by
  induction cs using List.reverseRecOn with
  | nil => rfl
  | append_singleton cs c ih =>
    rw [List.rdropWhile_concat, List.rdropWhile_concat, h c (by simp),
      ih fun d hd => h d (List.mem_append_left _ hd)]

theorem dropEndWhile_isLineEnd {cs : List Char} (h : '\n' ∉ cs) :
    dropEndWhile isLineEnd cs = cs.rdropWhile (· = '\r') :=
  rdropWhile_congr fun c hc => by
    have hfeed : c ≠ '\n' := fun heq => h (heq ▸ hc)
    rw [isLineEnd, beq_eq_false_iff_ne.mpr hfeed, Bool.or_false]
    rfl

theorem withoutEnd_of_not_mem (h : '\n' ∉ text.toList) :
    withoutEnd text = String.ofList (text.toList.rdropWhile (· = '\r')) := by
  have hlast : text.toList.getLast? ≠ some '\n' := fun heq => h (List.mem_of_getLast? heq)
  rw [withoutEnd, if_neg hlast]

theorem withoutEnd_append (text : String) :
    withoutEnd (text ++ "\n") = String.ofList (text.toList.rdropWhile (· = '\r')) := by
  have hcs : (text ++ "\n").toList = text.toList ++ ['\n'] := String.toList_append
  rw [withoutEnd, hcs, if_pos List.getLast?_concat, List.dropLast_concat]

theorem lineText_eq_answer (h : lineFeed ∉ body) :
    (lineText body).map some = answer (some body) ∧
      (lineText body).map some = answer (some (body ++ [lineFeed])) := by
  simp only [lineText, answer, show lineFeed = 10 from rfl, Utf8.decode_append_lineFeed] at h ⊢
  cases hdecode : Utf8.decode body with
  | none => exact ⟨rfl, rfl⟩
  | some text =>
    rw [Utf8.decode_eq_some_iff.mp hdecode, Utf8.mem_encode_lineFeed] at h
    simp only [Except.map, Option.map_some, dropEndWhile_isLineEnd h, withoutEnd_of_not_mem h,
      withoutEnd_append, and_self]

/-- **A call** reads up to a line feed, and over it. -/
theorem readLine_append (h : lineFeed ∉ body) :
    (⟨body ++ lineFeed :: bytes, history⟩ : Reader).readLine =
      (answer (some (body ++ [lineFeed])), ⟨bytes, history⟩) := by
  have hstop : ∀ b ∈ body, (b != lineFeed) = true := fun b hb =>
    bne_iff_ne.mpr fun heq => h (heq ▸ hb)
  rw [readLine, if_neg (by simp), List.takeWhile_append_of_pos hstop,
    List.dropWhile_append_of_pos hstop, List.takeWhile_cons_of_neg (by simp),
    List.dropWhile_cons_of_neg (by simp), List.append_nil, (lineText_eq_answer h).2]
  rfl

/-- **The last call** that reads something reads all that is left, if no line feed is. -/
theorem readLine_rest (hne : body ≠ []) (h : lineFeed ∉ body) :
    (⟨body, history⟩ : Reader).readLine = (answer (some body), ⟨[], history⟩) := by
  have hall : ∀ b ∈ body, (b != lineFeed) = true := fun b hb =>
    bne_iff_ne.mpr fun heq => h (heq ▸ hb)
  rw [readLine, if_neg (by simpa using hne), List.takeWhile_eq_self_iff.mpr hall,
    List.dropWhile_eq_nil_iff.mpr hall, (lineText_eq_answer h).1]
  rfl

theorem readLine_nil : (⟨[], history⟩ : Reader).readLine = (answer none, ⟨[], history⟩) := rfl

/-! ## All calls -/

theorem after_nil (n : ℕ) : (⟨[], history⟩ : Reader).after n = ⟨[], history⟩ := by
  induction n with
  | zero => rfl
  | succ n ih => exact ih

/-- **One segment a call,** in order, then the end of the input for ever. -/
theorem answer_after (h : Segments bytes segments) (history : History) (n : ℕ) :
    ((⟨bytes, history⟩ : Reader).after n).readLine.1 = answer segments[n]? := by
  induction h generalizing n with
  | nil => rw [after_nil, readLine_nil, List.getElem?_nil]
  | @rest body hne hbody =>
    cases n with
    | zero => exact congrArg Prod.fst (readLine_rest hne hbody)
    | succ n =>
      rw [after, readLine_rest hne hbody, after_nil, readLine_nil, List.getElem?_cons_succ,
        List.getElem?_nil]
  | cons hbody _ ih =>
    cases n with
    | zero => exact congrArg Prod.fst (readLine_append hbody)
    | succ n => rw [after, readLine_append hbody, ih, List.getElem?_cons_succ]

theorem lines_of_end {r : Reader} (h : r.readLine.1 = .ok none) : r.lines = ([], none) := by
  rw [lines]
  split
  case h_1 => rfl
  case h_2 e he => cases h.symm.trans he
  case h_3 line hline => cases h.symm.trans hline

theorem lines_of_line {r : Reader} {l : String} (h : r.readLine.1 = .ok (some l)) :
    r.lines = (l :: r.readLine.2.lines.1, r.readLine.2.lines.2) := by
  rw [lines]
  split
  case h_1 hend => cases h.symm.trans hend
  case h_2 e he => cases h.symm.trans he
  case h_3 line hline =>
    cases h.symm.trans hline
    rfl

theorem lines_eq_of_after {r : Reader} {ls : List String}
    (h : ∀ n, (r.after n).readLine.1 = .ok ls[n]?) : r.lines = (ls, none) := by
  induction ls generalizing r with
  | nil => exact lines_of_end (h 0)
  | cons l ls ih =>
    have hread : r.readLine.1 = .ok (some l) := h 0
    have hrest : r.readLine.2.lines = (ls, none) := ih fun n => h (n + 1)
    rw [lines_of_line hread, hrest]

/-! ## Lines with their ends -/

/-- The ways to end a line. -/
def lineEnds : List String := ["\n", "\r\n"]

/-- Lines, each with its end behind it. -/
def joined (ls : List (String × String)) : String := String.join (ls.map fun l => l.1 ++ l.2)

variable {line lineEnd : String} {ls : List (String × String)}

theorem withoutEnd_of_line (hreturn : line.toList.getLast? ≠ some '\r')
    (hend : lineEnd ∈ lineEnds) : withoutEnd (line ++ lineEnd) = line := by
  have hline : line.toList.rdropWhile (· = '\r') = line.toList := by
    rw [List.rdropWhile_eq_self_iff]
    intro hne hlast
    rw [List.getLast?_eq_some_getLast hne, of_decide_eq_true hlast] at hreturn
    exact hreturn rfl
  rcases List.mem_pair.mp hend with rfl | rfl
  · rw [withoutEnd_append, hline, String.ofList_toList]
  · rw [show "\r\n" = "\r" ++ "\n" from rfl, ← String.append_assoc,
      withoutEnd_append, String.toList_append, show "\r".toList = ['\r'] from rfl,
      List.rdropWhile_concat_pos _ _ _ rfl, hline, String.ofList_toList]

theorem exists_encode_of_line (hfeed : '\n' ∉ line.toList) (hend : lineEnd ∈ lineEnds) :
    ∃ body, lineFeed ∉ body ∧ Utf8.encode (line ++ lineEnd) = body ++ [lineFeed] := by
  rcases List.mem_pair.mp hend with rfl | rfl
  · exact ⟨Utf8.encode line, mt Utf8.mem_encode_lineFeed.mp hfeed, Utf8.encode_append line "\n"⟩
  · refine ⟨Utf8.encode (line ++ "\r"), mt Utf8.mem_encode_lineFeed.mp ?_, ?_⟩
    · simp [hfeed]
    · rw [show "\r\n" = "\r" ++ "\n" from rfl, ← String.append_assoc, Utf8.encode_append]
      rfl

theorem segments_joined (hfeed : ∀ l ∈ ls, '\n' ∉ l.1.toList) (hend : ∀ l ∈ ls, l.2 ∈ lineEnds) :
    Segments (Utf8.encode (joined ls)) (ls.map fun l => Utf8.encode (l.1 ++ l.2)) := by
  induction ls with
  | nil => exact .nil
  | cons l ls ih =>
    obtain ⟨hl, hls⟩ := List.forall_mem_cons.mp hfeed
    obtain ⟨he, hes⟩ := List.forall_mem_cons.mp hend
    obtain ⟨body, hbody, hencode⟩ := exists_encode_of_line hl he
    have hjoined : joined (l :: ls) = (l.1 ++ l.2) ++ joined ls := String.join_cons
    rw [hjoined, Utf8.encode_append, List.map_cons, hencode, List.append_assoc]
    exact .cons hbody (ih hls hes)

/-- **Lines that are written with their ends read back,** if they contain no line feed and do not end
in a carriage return. -/
theorem lines_joined (hfeed : ∀ l ∈ ls, '\n' ∉ l.1.toList)
    (hreturn : ∀ l ∈ ls, l.1.toList.getLast? ≠ some '\r') (hend : ∀ l ∈ ls, l.2 ∈ lineEnds) :
    (ofBytes (Utf8.encode (joined ls))).lines = (ls.map Prod.fst, none) := by
  refine lines_eq_of_after fun n => ?_
  rw [ofBytes, answer_after (segments_joined hfeed hend), List.getElem?_map, List.getElem?_map]
  cases hl : ls[n]? with
  | none => rfl
  | some l =>
    have hmem : l ∈ ls := List.mem_of_getElem? hl
    simp only [Option.map_some, answer, Utf8.decode_encode,
      withoutEnd_of_line (hreturn l hmem) (hend l hmem)]

/-- **Reading lines loses nothing.** Any bytes can be cut behind their line feeds, and the calls
answer for the segments in order: with the line, or with a failure if it is not UTF-8. After that
there is nothing more for ever. So lines read back, whichever of its ends each is written with. -/
theorem readLine_segments :
    (∀ bytes, ∃ segments, Segments bytes segments) ∧
      (∀ bytes segments history, Segments bytes segments →
        segments.flatten = bytes ∧
          ∀ n, ((⟨bytes, history⟩ : Reader).after n).readLine.1 = answer segments[n]?) ∧
      ∀ ls : List (String × String),
        (∀ l ∈ ls, '\n' ∉ l.1.toList ∧ l.1.toList.getLast? ≠ some '\r' ∧ l.2 ∈ lineEnds) →
        (ofBytes (Utf8.encode (joined ls))).lines = (ls.map Prod.fst, none) :=
  ⟨Segments.exists_segments,
    fun _ _ history h => ⟨h.flatten, answer_after h history⟩,
    fun _ h => lines_joined (fun l hl => (h l hl).1) (fun l hl => (h l hl).2.1)
      fun l hl => (h l hl).2.2⟩

/-- A line with two carriage returns at its end, an empty one, one that is not UTF-8, and one
without a line feed. -/
theorem readLine_segments_mixed :
    let bytes : List UInt8 := [97, 13, 13, 10, 10, 255, 10, 98, 13]
    let segments : List (List UInt8) := [[97, 13, 13, 10], [10], [255, 10], [98, 13]]
    let ls := [("show\rall", "\r\n"), ("", "\n")]
    let call (n : ℕ) := ((⟨bytes, .empty⟩ : Reader).after n).readLine.1
    Segments bytes segments ∧ segments.flatten = bytes ∧ call 0 = .ok (some "a") ∧
      call 1 = .ok (some "") ∧ call 2 = .error .invalidText ∧ call 3 = .ok (some "b") ∧
      (∀ n, call (n + 4) = .ok none) ∧
      (∀ l ∈ ls, '\n' ∉ l.1.toList ∧ l.1.toList.getLast? ≠ some '\r' ∧ l.2 ∈ lineEnds) ∧
      (ofBytes (Utf8.encode (joined ls))).lines = (["show\rall", ""], none) := by
  intro bytes segments ls call
  have hrest : Segments [98, 13] [[98, 13]] := .rest (by decide) (by decide)
  have hrefused : Segments [255, 10, 98, 13] [[255, 10], [98, 13]] :=
    @Segments.cons [255] _ _ (by decide) hrest
  have hempty : Segments [10, 255, 10, 98, 13] [[10], [255, 10], [98, 13]] :=
    @Segments.cons [] _ _ (by decide) hrefused
  have hsegments : Segments bytes segments := @Segments.cons [97, 13, 13] _ _ (by decide) hempty
  have hls : ∀ l ∈ ls,
      '\n' ∉ l.1.toList ∧ l.1.toList.getLast? ≠ some '\r' ∧ l.2 ∈ lineEnds := by decide +kernel
  obtain ⟨hflatten, hcall⟩ := readLine_segments.2.1 bytes segments .empty hsegments
  refine ⟨hsegments, hflatten, (hcall 0).trans ?_, (hcall 1).trans ?_, (hcall 2).trans ?_,
    (hcall 3).trans ?_, fun n => (hcall (n + 4)).trans ?_, hls, readLine_segments.2.2 ls hls⟩
  · decide +kernel
  · decide +kernel
  · decide +kernel
  · decide +kernel
  · rfl

end Reader

end Console
