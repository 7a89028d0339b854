import Console.Proofs.LineEditor

/-!
# Walking the history

While the history is walked the fresh line is kept as a draft, and the line may be edited at every
place. Only the walk itself and giving the line up change the place, and the draft is only replaced
where the fresh line is left.

* `Keystroke`, `LineState.strike`, `LineState.after`: a key, and what some of them make of a line;
* `LineState.Shown`: the line is what belongs at its place;
* `LineState.frame_strike`: all other keys leave place and draft;
* **`LineState.strike_up`**, **`LineState.strike_down`**: one step of the walk;
* `LineState.Away`, **`Away.after`**: as long as the walk is not back, the draft is the fresh line;
* **`LineState.fresh_line_survives`**: when it is back, so is the fresh line.
-/

namespace Console

/-- A key press, with the assistant that is there at that time. -/
structure Keystroke where
  press : KeyPress
  assistant : Assistant

namespace Keystroke

/-- It walks the history. -/
def Walks (k : Keystroke) : Prop := k.press.key = .up ∨ k.press.key = .down

/-- It gives the line up. -/
def Discards (k : Keystroke) : Prop := k.press = ⟨.char 'c', true⟩

instance (k : Keystroke) : Decidable k.Walks := inferInstanceAs (Decidable (_ ∨ _))

instance (k : Keystroke) : Decidable k.Discards := inferInstanceAs (Decidable (_ = _))

end Keystroke

namespace LineState

/-- What is to be done after a key. -/
def answer (h : History) (s : LineState) (k : Keystroke) : Action :=
  (s.press h k.assistant k.press).1

/-- The line after a key. -/
def strike (h : History) (s : LineState) (k : Keystroke) : LineState :=
  (s.press h k.assistant k.press).2

/-- The line after some keys. -/
def after (h : History) (s : LineState) (ks : List Keystroke) : LineState := ks.foldl (strike h) s

/-- The line is what belongs at its place: the entry there or, behind the last entry, the draft. -/
structure Shown (h : History) (s : LineState) : Prop where
  entry : s.place < h.size → h.entries[s.place]? = some s.buffer
  draft : s.place = h.size → s.buffer = s.draft

/-- The key leads down to the fresh line. -/
def Returns (h : History) (s : LineState) (k : Keystroke) : Prop :=
  k.press.key = .down ∧ s.place ≠ h.size ∧ (s.strike h k).place = h.size

instance (h : History) (s : LineState) (k : Keystroke) : Decidable (s.Returns h k) :=
  inferInstanceAs (Decidable (_ ∧ _ ∧ _))

/-- The walk left a fresh line that was `b`, and is not back yet. -/
structure Away (h : History) (b : String) (s : LineState) : Prop where
  place_lt : s.place < h.size
  draft_eq : s.draft = b

variable {h : History} {s : LineState} {k : Keystroke} {b : String}

/-! ## One key -/

theorem frame_replaceWord (s : LineState) (replacement : String) :
    (s.replaceWord replacement).draft = s.draft ∧ (s.replaceWord replacement).place = s.place := by
  simp only [replaceWord, and_self]

theorem frame_complete (s : LineState) (a : Assistant) :
    (s.complete a).2.draft = s.draft ∧ (s.complete a).2.place = s.place := by
  rcases hoffered : a.complete s.buffer (currentWord s.buffer) with _ | ⟨k, _ | ⟨l, ks⟩⟩
  · rw [complete_of_nil hoffered]
    exact ⟨rfl, rfl⟩
  · rw [complete_of_singleton hoffered]
    exact frame_replaceWord s _
  · rw [complete_of_many hoffered]
    split_ifs
    · exact frame_replaceWord s _
    · exact ⟨rfl, rfl⟩

/-- **The other keys** leave the draft, and the place too unless the line is given up. -/
theorem frame_strike (hk : ¬ k.Walks) :
    (s.strike h k).draft = s.draft ∧
      (s.strike h k).place = if k.Discards then h.size else s.place := by
  obtain ⟨⟨key, control⟩, a⟩ := k
  obtain ⟨hup, hdown⟩ := not_or.mp hk
  unfold strike press Keystroke.Discards
  dsimp only at hup hdown ⊢
  -- The cases are those of the definition, in its order.
  split
  · exact ⟨rfl, (if_neg nofun).symm⟩
  · exact ⟨rfl, (if_pos rfl).symm⟩
  · exact ⟨rfl, (if_neg (by decide)).symm⟩
  · exact ⟨rfl, (if_neg (by decide)).symm⟩
  · split <;> exact ⟨rfl, (if_neg (by simp)).symm⟩
  · obtain ⟨hdraft, hplace⟩ := frame_complete s a
    exact ⟨hdraft, hplace.trans (if_neg nofun).symm⟩
  · split <;> exact ⟨rfl, (if_neg nofun).symm⟩
  · exact absurd rfl hup
  · exact absurd rfl hdown
  · exact ⟨rfl, (if_neg (by simp)).symm⟩
  · rename_i hdiscards _ _ _
    refine ⟨rfl, (if_neg fun hc => ?_).symm⟩
    obtain ⟨hkey, -⟩ := KeyPress.mk.inj hc
    exact hdiscards (Key.char.inj hkey)
  · exact ⟨rfl, (if_neg nofun).symm⟩

/-- **The key up** goes one place back, unless there is none and it is ignored. -/
theorem strike_up (hk : k.press.key = .up) :
    s.place = 0 ∧ s.answer h k = .ignore ∧ s.strike h k = s ∨
      0 < s.place ∧ s.answer h k = .redraw ∧ s.strike h k = s.goTo h (s.place - 1) := by
  obtain ⟨⟨key, control⟩, a⟩ := k
  cases hk
  unfold answer strike press
  dsimp only [up]
  split_ifs with hzero
  · exact .inl ⟨hzero, rfl, rfl⟩
  · exact .inr ⟨Nat.pos_of_ne_zero hzero, rfl, rfl⟩

/-- **The key down** goes one place on, unless there is none and it is ignored. -/
theorem strike_down (hk : k.press.key = .down) :
    h.size ≤ s.place ∧ s.answer h k = .ignore ∧ s.strike h k = s ∨
      s.place < h.size ∧ s.answer h k = .redraw ∧ s.strike h k = s.goTo h (s.place + 1) := by
  obtain ⟨⟨key, control⟩, a⟩ := k
  cases hk
  unfold answer strike press
  dsimp only [down]
  split_ifs with hend
  · exact .inl ⟨hend, rfl, rfl⟩
  · exact .inr ⟨Nat.not_le.mp hend, rfl, rfl⟩

theorem shown_goTo (s : LineState) (h : History) (place : ℕ) : (s.goTo h place).Shown h := by
  constructor
  · intro hlt
    have hentry : h.entries[place]? = some h.entries[place] := List.getElem?_eq_getElem hlt
    simp only [goTo, hentry, Option.getD_some]
  · intro hend
    have hnone : h.entries[place]? = none := List.getElem?_eq_none (Nat.le_of_eq hend.symm)
    simp only [goTo, hnone, Option.getD_none]

theorem draft_goTo_of_eq (hplace : s.place = h.size) (place : ℕ) :
    (s.goTo h place).draft = s.buffer := by
  simp only [goTo, if_pos hplace]

theorem draft_goTo_of_ne (hplace : s.place ≠ h.size) (place : ℕ) :
    (s.goTo h place).draft = s.draft := by
  simp only [goTo, if_neg hplace]

theorem place_strike_le (hplace : s.place ≤ h.size) : (s.strike h k).place ≤ h.size := by
  by_cases hwalks : k.Walks
  · rcases hwalks with hup | hdown
    · rcases strike_up (h := h) (s := s) hup with ⟨-, -, hs⟩ | ⟨-, -, hs⟩
      · rwa [hs]
      · rw [hs]
        exact (Nat.sub_le s.place 1).trans hplace
    · rcases strike_down (h := h) (s := s) hdown with ⟨-, -, hs⟩ | ⟨hlt, -, hs⟩
      · rwa [hs]
      · rw [hs]
        exact hlt
  · rw [(frame_strike hwalks).2]
    split_ifs
    · exact Nat.le_refl _
    · exact hplace

/-! ## Some keys -/

theorem place_after_le {ks : List Keystroke} (hplace : s.place ≤ h.size) :
    (s.after h ks).place ≤ h.size := by
  induction ks generalizing s with
  | nil => exact hplace
  | cons k ks ih => exact ih (place_strike_le hplace)

/-- **Leaving the fresh line** makes it the draft. -/
theorem away_of_up (hplace : s.place = h.size) (hk : k.press.key = .up)
    (hanswer : s.answer h k ≠ .ignore) : (s.strike h k).Away h s.buffer := by
  rcases strike_up (h := h) hk with ⟨-, hignore, -⟩ | ⟨hpos, -, hs⟩
  · exact absurd hignore hanswer
  · rw [hs]
    refine ⟨?_, draft_goTo_of_eq hplace _⟩
    change s.place - 1 < h.size
    omega

/-- **Away from the fresh line,** a key that neither gives the line up nor leads back keeps the
draft. -/
theorem Away.strike (hs : s.Away h b) (hdiscards : ¬ k.Discards) (hreturns : ¬ s.Returns h k) :
    (s.strike h k).Away h b := by
  have hne : s.place ≠ h.size := Nat.ne_of_lt hs.place_lt
  by_cases hwalks : k.Walks
  · rcases hwalks with hup | hdown
    · rcases strike_up (h := h) (s := s) hup with ⟨-, -, heq⟩ | ⟨hpos, -, heq⟩
      · rwa [heq]
      · rw [heq]
        exact ⟨(Nat.sub_le s.place 1).trans_lt hs.place_lt,
          (draft_goTo_of_ne hne _).trans hs.draft_eq⟩
    · rcases strike_down (h := h) (s := s) hdown with ⟨-, -, heq⟩ | ⟨hlt, -, heq⟩
      · rwa [heq]
      · have hback : (s.strike h k).place ≠ h.size := fun hback => hreturns ⟨hdown, hne, hback⟩
        rw [heq] at hback ⊢
        exact ⟨Nat.lt_of_le_of_ne hlt hback, (draft_goTo_of_ne hne _).trans hs.draft_eq⟩
  · obtain ⟨hdraft, hplace⟩ := frame_strike (h := h) (s := s) hwalks
    rw [if_neg hdiscards] at hplace
    exact ⟨hplace.symm ▸ hs.place_lt, hdraft.trans hs.draft_eq⟩

/-- **A walk that is not back yet** keeps the draft. -/
theorem Away.after {ks : List Keystroke} (hs : s.Away h b) (hdiscards : ∀ k ∈ ks, ¬ k.Discards)
    (hreturns : ∀ n (hn : n < ks.length), ¬ (s.after h (ks.take n)).Returns h ks[n]) :
    (s.after h ks).Away h b := by
  induction ks generalizing s with
  | nil => exact hs
  | cons k ks ih =>
    have hstrike := hs.strike (hdiscards k List.mem_cons_self) (hreturns 0 (Nat.succ_pos _))
    exact ih hstrike (fun l hl => hdiscards l (List.mem_cons_of_mem k hl))
      fun n hn => hreturns (n + 1) (Nat.succ_lt_succ hn)

/-- **Coming back** brings the fresh line back. -/
theorem Away.buffer_of_returns (hs : s.Away h b) (hreturns : s.Returns h k) :
    (s.strike h k).buffer = b := by
  obtain ⟨hdown, hne, hback⟩ := hreturns
  rcases strike_down (h := h) (s := s) hdown with ⟨hend, -, -⟩ | ⟨-, -, heq⟩
  · exact absurd hs.place_lt (Nat.not_lt.mpr hend)
  · rw [heq] at hback ⊢
    rw [(shown_goTo s h _).draft hback, draft_goTo_of_ne hne, hs.draft_eq]

/-- **The fresh line survives a walk through the history.** The keys up and down go by one place,
within the history, and show what belongs there: the entry, or the draft. The first key down that
leads back to the fresh line shows it as it was, whatever else was pressed in the meantime, unless
the line was given up. -/
theorem fresh_line_survives (h : History) (ks : List Keystroke) :
    let s := (fresh h).after h ks
    s.place ≤ h.size ∧
      (∀ k : Keystroke, s.answer h k ≠ .ignore →
        (k.press.key = .up →
          (s.strike h k).place + 1 = s.place ∧ (s.strike h k).Shown h) ∧
        (k.press.key = .down →
          (s.strike h k).place = s.place + 1 ∧ (s.strike h k).Shown h)) ∧
      ∀ (leave : Keystroke) (walk : List Keystroke) (back : Keystroke),
        s.place = h.size → leave.press.key = .up → s.answer h leave ≠ .ignore →
        let t := s.strike h leave
        (∀ k ∈ walk, ¬ k.Discards) →
        (∀ n (hn : n < walk.length), ¬ (t.after h (walk.take n)).Returns h walk[n]) →
        (t.after h walk).Returns h back →
        ((t.after h walk).strike h back).buffer = s.buffer := by
  intro s
  refine ⟨place_after_le (Nat.le_refl _), fun k hanswer => ⟨fun hup => ?_, fun hdown => ?_⟩, ?_⟩
  · rcases strike_up (h := h) (s := s) hup with ⟨-, hignore, -⟩ | ⟨hpos, -, heq⟩
    · exact absurd hignore hanswer
    · rw [heq]
      exact ⟨Nat.sub_add_cancel hpos, shown_goTo s h _⟩
  · rcases strike_down (h := h) (s := s) hdown with ⟨-, hignore, -⟩ | ⟨-, -, heq⟩
    · exact absurd hignore hanswer
    · rw [heq]
      exact ⟨rfl, shown_goTo s h _⟩
  · intro leave walk back hplace hup hanswer t hdiscards hfirst hback
    have haway : (t.after h walk).Away h s.buffer :=
      (away_of_up hplace hup hanswer).after hdiscards hfirst
    exact haway.buffer_of_returns hback

/-- A line that is completed, cleared and typed over at two places of the history is back. -/
theorem fresh_line_survives_pi :
    let h : History := ⟨["show version", "show system"], 100⟩
    let key (k : Key) (control : Bool) : Keystroke :=
      ⟨⟨k, control⟩, ⟨fun _ _ => ["ping", "pipe"], fun _ => none⟩⟩
    let s := (fresh h).after h [key (.char 'p') false, key (.char 'i') false]
    let leave := key .up false
    let walk := [key (.char 'u') true, key .up false, key .up false, key .tab false,
      key .down false, key .backspace false, key (.char '?') false]
    let back := key .down false
    s.place = h.size ∧ s.answer h leave ≠ .ignore ∧ (∀ k ∈ walk, ¬ k.Discards) ∧
      (∀ n (hn : n < walk.length),
        ¬ ((s.strike h leave).after h (walk.take n)).Returns h walk[n]) ∧
      ((s.strike h leave).after h walk).Returns h back ∧
      ((s.strike h leave).after h walk).buffer = "show syste" ∧
      (((s.strike h leave).after h walk).strike h back).buffer = s.buffer ∧ s.buffer = "pi" := by
  intro h key s leave walk back
  have hplace : s.place = h.size := by decide +kernel
  have hanswer : s.answer h leave ≠ .ignore := by decide +kernel
  have hdiscards : ∀ k ∈ walk, ¬ k.Discards := by
    simp only [walk, List.forall_mem_cons]
    decide
  have hfirst : ∀ n (hn : n < walk.length),
      ¬ ((s.strike h leave).after h (walk.take n)).Returns h walk[n] := by decide +kernel
  have hback : ((s.strike h leave).after h walk).Returns h back := by decide +kernel
  exact ⟨hplace, hanswer, hdiscards, hfirst, hback, by decide +kernel,
    (fresh_line_survives h _).2.2 leave walk back hplace rfl hanswer hdiscards hfirst hback,
    by decide +kernel⟩

end LineState

end Console
