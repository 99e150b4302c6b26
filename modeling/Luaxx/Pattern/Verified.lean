import Luaxx.Pattern.Match
import Luaxx.Pattern.Semantics

/-!
# The matcher finds the first success

For a well-formed pattern `do_match` returns the first of the `successes`, with its captures, and
`NULL` when there is none. The induction is on the grammar. `Rep` ties the array of captures to
the captures of the semantics; what a failed call leaves behind represents the same captures as
before, which is what lets the next alternative start.
-/

namespace Luaxx.Pattern

open Luaxx.Ctype Luaxx.Result

/-! ## Single characters -/

theorem match_class_eq (c x : UInt8) : match_class c x = classMatches x c := by
  have hsense : ∀ b : Bool, (if islower x = true then b else !b) = (b == islower x) := by
    intro b
    cases b <;> cases islower x <;> rfl
  unfold match_class classMatches letterClass letterClasses
  simp only [hsense, List.find?_cons]
  have hne : ∀ k, ¬ tolower x = ch k → (tolower x == ch k) = false := fun _ =>
    beq_eq_false_iff_ne.mpr
  split_ifs with h1 h2 h3 h4 h5 h6 h7 h8 h9 h10
  case neg =>
    simp only [hne _ h1, hne _ h2, hne _ h3, hne _ h4, hne _ h5, hne _ h6, hne _ h7, hne _ h8,
      hne _ h9, hne _ h10]
    exact Bool.beq_comm
  all_goals
    rw [‹tolower x = _›]
    rfl

/-! ## Sets -/

section Set

variable {first : Bool} {p rest ep : List UInt8} {items : List SetItem} {complement : Bool}

/-- A set ends with its `]`. -/
theorem SetBody.split (h : SetBody first p items rest) : ∃ body, p = body ++ ch ']' :: rest := by
  induction h with
  | close => exact ⟨[], rfl⟩
  | @cls _ x _ _ _ _ ih => exact ih.imp' (ch '%' :: x :: ·) fun _ h => by rw [h]; rfl
  | @range _ x y _ _ _ _ _ _ _ _ ih => exact ih.imp' (x :: ch '-' :: y :: ·) fun _ h => by rw [h]; rfl
  | @char _ x _ _ _ _ _ _ _ ih => exact ih.imp' (x :: ·) fun _ h => by rw [h]; rfl

theorem SetBody.length_lt (h : SetBody first p items rest) : rest.length < p.length := by
  obtain ⟨body, rfl⟩ := h.split
  rw [List.length_append, List.length_cons]
  omega

theorem SetBody.ne_nil (h : SetBody first p items rest) : p ≠ [] := by
  rintro rfl
  exact Nat.not_lt_zero _ h.length_lt

/-- After the first place a `]` ends the set. -/
theorem SetBody.of_bracket (h : SetBody false (ch ']' :: p) items rest) : rest = p := by
  generalize hq : ch ']' :: p = q at h
  generalize hb : false = b at h
  cases h with
  | close => exact (List.cons.inj hq).2.symm
  | cls _ =>
    have := (List.cons.inj hq).1
    simp at this
  | range _ hfirst _ _ _ => exact absurd (hfirst (List.cons.inj hq).1.symm) (by simp [← hb])
  | char _ hfirst _ _ => exact absurd (hfirst (List.cons.inj hq).1.symm) (by simp [← hb])

/-- A `-` before it is a character. -/
theorem SetBody.of_dash_bracket (h : SetBody false (ch '-' :: ch ']' :: p) items rest) :
    rest = p := by
  generalize hq : ch '-' :: ch ']' :: p = q at h
  cases h with
  | close =>
    have := (List.cons.inj hq).1
    simp at this
  | cls _ =>
    have := (List.cons.inj hq).1
    simp at this
  | range _ _ _ _ _ =>
    have := (List.cons.inj (List.cons.inj hq).2).1
    simp at this
  | char _ _ _ hb =>
    obtain ⟨rfl, rfl⟩ := List.cons.inj hq
    exact hb.of_bracket

/-- The loop of `classend` after a character has been read. -/
def setRest (p : List UInt8) : Except String (List UInt8) :=
  if deref p = ch ']' then .ok p.tail else setEnd p

theorem setEnd_esc {x : UInt8} (hx : x ≠ 0) : setEnd (ch '%' :: x :: p) = setRest p := by
  rw [setEnd, if_neg (by simp)]
  show (if ch '%' = ch L_ESC ∧ x ≠ 0 then _ else _) = _
  rw [if_pos ⟨rfl, hx⟩]
  rfl

theorem setEnd_char {x : UInt8} (hx : x ≠ 0) (hesc : x ≠ ch '%') (hp : p ≠ []) :
    setEnd (x :: p) = setRest p := by
  obtain ⟨y, q, rfl⟩ := List.exists_cons_of_ne_nil hp
  rw [setEnd, if_neg hx]
  show (if x = ch L_ESC ∧ y ≠ 0 then _ else _) = _
  rw [if_neg fun h => hesc h.1]
  rfl

/-- What `classend` finds is the end of the set. -/
theorem setEnd_eq (h : SetBody first p items rest) (h0 : 0 ∉ p) :
    (if first then setEnd p else setRest p) = .ok rest := by
  have hfirst_char : ∀ {first : Bool} {x : UInt8} (p : List UInt8), (x = ch ']' → first = true) →
      (if first then setEnd (x :: p) else setRest (x :: p)) = setEnd (x :: p) := by
    intro first x p hfirst
    cases first
    · rw [if_neg Bool.false_ne_true, setRest, deref_cons,
        if_neg fun hx => absurd (hfirst hx) Bool.false_ne_true]
    · rw [if_pos rfl]
  induction h with
  | close => rfl
  | @cls first x p rest items hbody ih =>
    simp only [List.mem_cons, not_or] at h0
    rw [hfirst_char _ (by simp), setEnd_esc (Ne.symm h0.2.1)]
    exact ih h0.2.2
  | @range first x y p rest items hx hfirst hy hy' hbody ih =>
    simp only [List.mem_cons, not_or] at h0
    rw [hfirst_char _ hfirst, setEnd_char (Ne.symm h0.1) hx (List.cons_ne_nil _ _), setRest,
      deref_cons, if_neg (by simp), setEnd_char (by simp) (by simp) (List.cons_ne_nil _ _), setRest,
      deref_cons, if_neg hy', setEnd_char (Ne.symm h0.2.2.1) hy hbody.ne_nil]
    exact ih h0.2.2.2
  | @char first x p rest items hx hfirst hnot hbody ih =>
    simp only [List.mem_cons, not_or] at h0
    rw [hfirst_char _ hfirst, setEnd_char (Ne.symm h0.1) hx hbody.ne_nil]
    exact ih h0.2

theorem bracketLoop_stop (c : UInt8) (sig : Bool) : bracketLoop c sig p p = !sig := by
  cases p with
  | nil => rfl
  | cons x p => rw [bracketLoop.eq_def, List.length_cons]; simp

section Loop

variable {x : UInt8} (hlt : ep.length < p.length + 1) (c : UInt8) (sig : Bool)

theorem bracketLoop_esc (hlt : ep.length < (x :: p).length + 1) :
    bracketLoop c sig ep (ch '%' :: x :: p) =
      if classMatches x c then sig else bracketLoop c sig ep p := by
  rw [bracketLoop.eq_def]
  simp only [hlt, if_true, match_class_eq]

include hlt in
theorem bracketLoop_range {y : UInt8} (hx : x ≠ ch '%') :
    bracketLoop c sig ep (x :: ch '-' :: y :: p) =
      if x ≤ c ∧ c ≤ y then sig else bracketLoop c sig ep p := by
  have hlt' : ep.length < (ch '-' :: y :: p).length + 1 := by
    simp only [List.length_cons]
    omega
  rw [bracketLoop.eq_def]
  simp only [hlt, hlt', hx, and_self, if_true, if_false]

include hlt in
theorem bracketLoop_char (hx : x ≠ ch '%')
    (hdash : ∀ y q, p = ch '-' :: y :: q → q.length + 1 ≤ ep.length) :
    bracketLoop c sig ep (x :: p) = if x = c then sig else bracketLoop c sig ep p := by
  rw [bracketLoop.eq_def]
  simp only [hlt, hx, if_true, if_false]
  split
  · rename_i y z q
    rw [if_neg]
    rintro ⟨rfl, h⟩
    exact absurd h (Nat.not_lt.mpr (hdash z q rfl))
  · rfl

end Loop

/-- `matchbracketclass` goes through the items of the set. -/
theorem bracketLoop_eq (h : SetBody first p items rest) (c : UInt8) (sig : Bool) :
    bracketLoop c sig (ch ']' :: rest) p =
      if items.any (SetItem.matches c) then sig else !sig := by
  induction h with
  | close => exact bracketLoop_stop c sig
  | @cls first x p rest items hbody ih =>
    have hlt : (ch ']' :: rest).length < p.length + 1 := Nat.succ_lt_succ hbody.length_lt
    rw [bracketLoop_esc c sig (Nat.lt_succ_of_lt hlt), ih, List.any_cons]
    show (if classMatches x c = true then sig else _) =
      if (classMatches x c || items.any (SetItem.matches c)) = true then sig else !sig
    by_cases hm : classMatches x c <;> simp [hm]
  | @range first x y p rest items hx hfirst hy hy' hbody ih =>
    have hlt : (ch ']' :: rest).length < p.length + 1 := Nat.succ_lt_succ hbody.length_lt
    rw [bracketLoop_range hlt c sig hx, ih, List.any_cons]
    show _ = if ((decide (x ≤ c) && decide (c ≤ y)) || items.any (SetItem.matches c)) = true then
      sig else !sig
    by_cases h1 : x ≤ c <;> by_cases h2 : c ≤ y <;> simp [h1, h2]
  | @char first x p rest items hx hfirst hnot hbody ih =>
    have hlt : (ch ']' :: rest).length < p.length + 1 := Nat.succ_lt_succ hbody.length_lt
    -- a `-` before the last `]` stands for itself
    have hdash : ∀ y q, p = ch '-' :: y :: q → q.length + 1 ≤ (ch ']' :: rest).length := by
      rintro y q rfl
      obtain rfl := hnot y q rfl
      rw [hbody.of_dash_bracket]
      exact Nat.le_refl _
    rw [bracketLoop_char hlt c sig hx hdash, ih, List.any_cons]
    show _ = if ((c == x) || items.any (SetItem.matches c)) = true then sig else !sig
    by_cases hc : x = c
    · simp [hc]
    · simp [hc, Ne.symm hc]

theorem classend_set (h : SetDenotes p complement items rest) (h0 : 0 ∉ p) :
    classend p = .ok rest := by
  cases h with
  | @plain p rest items hp hbody =>
    simp only [List.mem_cons, not_or] at h0
    have hne : deref p ≠ ch '^' := by
      obtain ⟨y, q, rfl⟩ := List.exists_cons_of_ne_nil hbody.ne_nil
      simpa using hp
    rw [classend, deref_cons, if_neg (by simp [L_ESC]), if_pos rfl, List.tail_cons, if_neg hne]
    exact setEnd_eq hbody h0.2
  | @complement p rest items hbody =>
    simp only [List.mem_cons, not_or] at h0
    rw [classend, deref_cons, if_neg (by simp [L_ESC]), if_pos rfl, List.tail_cons, deref_cons,
      if_pos rfl, List.tail_cons]
    exact setEnd_eq hbody h0.2.2

theorem before_eq (body : List UInt8) {p ep : List UInt8} {x : UInt8} (h : p = body ++ x :: ep) :
    before p ep = x :: ep := by
  subst h
  rw [before, List.length_append, List.length_cons, Nat.add_sub_cancel, List.drop_left]

theorem matchbracketclass_eq (h : SetDenotes p complement items rest) (c : UInt8) :
    matchbracketclass c p (before p rest) = setMatches complement items c := by
  have hcases : ∀ sig : Bool, (if items.any (SetItem.matches c) then sig else !sig) =
      (items.any (SetItem.matches c) != !sig) := by
    intro sig
    cases items.any (SetItem.matches c) <;> cases sig <;> rfl
  cases h with
  | @plain p rest items hp hbody =>
    have hne : deref p ≠ ch '^' := by
      obtain ⟨y, q, rfl⟩ := List.exists_cons_of_ne_nil hbody.ne_nil
      simpa using hp
    obtain ⟨body, hsplit⟩ := hbody.split
    rw [before_eq (ch '[' :: body) (by rw [hsplit]; rfl), matchbracketclass,
      List.tail_cons, if_neg hne, bracketLoop_eq hbody, hcases]
    rfl
  | @complement p rest items hbody =>
    obtain ⟨body, hsplit⟩ := hbody.split
    rw [before_eq (ch '[' :: ch '^' :: body) (by rw [hsplit]; rfl), matchbracketclass,
      List.tail_cons, deref_cons, if_pos rfl, List.tail_cons, bracketLoop_eq hbody, hcases]
    rfl

/-- `classend` and `singlematch` on what matches a single character. -/
theorem classend_eq {cl : CharClass} (h : ClassDenotes p cl ep) (h0 : 0 ∉ p) :
    classend p = .ok ep := by
  cases h with
  | any => rfl
  | @cls x p =>
    simp only [List.mem_cons, not_or] at h0
    rw [classend, deref_cons, if_pos rfl, List.tail_cons, deref_cons, if_neg (Ne.symm h0.2.1)]
    rfl
  | set h => exact classend_set h h0
  | char h1 h2 _ => rw [classend, deref_cons, if_neg h1, if_neg h2, List.tail_cons]

theorem singlematch_eq {cl : CharClass} (h : ClassDenotes p cl ep) (c : UInt8) :
    singlematch c p ep = cl.matches c := by
  cases h with
  | any => rfl
  | cls =>
    rw [singlematch, deref_cons, if_neg (by simp), if_pos rfl, List.tail_cons, deref_cons,
      match_class_eq]
    rfl
  | set h =>
    have hp : deref p = ch '[' := by cases h <;> rfl
    rw [singlematch, hp, if_neg (by simp), if_neg (by simp [L_ESC]), if_pos rfl,
      matchbracketclass_eq h]
    rfl
  | @char x p h1 h2 h3 =>
    rw [singlematch, deref_cons, if_neg h3, if_neg h1, if_neg h2]
    exact Bool.beq_comm

theorem ClassDenotes.length_lt {cl : CharClass} (h : ClassDenotes p cl ep) :
    ep.length < p.length := by
  cases h with
  | any => simp
  | cls => exact Nat.lt_succ_of_lt (Nat.lt_succ_self _)
  | set h =>
    cases h with
    | plain _ hbody => exact Nat.lt_succ_of_lt hbody.length_lt
    | complement hbody => exact Nat.lt_succ_of_lt (Nat.lt_succ_of_lt hbody.length_lt)
  | char _ _ _ => simp

end Set

/-! ## Captures -/

/-- How a capture is kept. -/
def Capture.slot : Capture → CaptureSlot
  | unfinished start => ⟨start, CAP_UNFINISHED⟩
  | position start => ⟨start, CAP_POSITION⟩
  | substring start stop => ⟨start, (stop : Int) - start⟩

/-- A capture of what lies before a position. -/
def Capture.Before (e : Nat) : Capture → Prop
  | unfinished start => start ≤ e
  | position start => start ≤ e
  | substring start stop => start ≤ stop ∧ stop ≤ e

def Capture.isUnfinished : Capture → Bool
  | unfinished _ => true
  | _ => false

theorem Capture.Before.mono {e e' : Nat} (he : e ≤ e') {c : Capture} (h : c.Before e) :
    c.Before e' := by
  cases c with
  | unfinished start => exact Nat.le_trans h he
  | position start => exact Nat.le_trans h he
  | substring start stop => exact ⟨h.1, Nat.le_trans h.2 he⟩

theorem Capture.slot_len {e : Nat} {c : Capture} (h : c.Before e) :
    c.slot.len = CAP_UNFINISHED ↔ c.isUnfinished = true := by
  cases c with
  | unfinished start => simp [slot, isUnfinished]
  | position start => simp [slot, isUnfinished, CAP_UNFINISHED, CAP_POSITION]
  | substring start stop =>
    have := h.1
    simp only [slot, isUnfinished, CAP_UNFINISHED, Bool.false_eq_true, iff_false]
    omega

/-- The array holds these captures, the newest last. -/
def Holds (capture : Nat → CaptureSlot) : Captures → Prop
  | [] => True
  | c :: cs => capture cs.length = c.slot ∧ Holds capture cs

/-- A state with these captures, all of what lies before `s`. -/
structure Rep (ms : MatchState) (cs : Captures) : Prop where
  level : ms.level = cs.length
  holds : Holds ms.capture cs

section Captures

variable {ms : MatchState} {cs : Captures} {s : Nat} {capture : Nat → CaptureSlot}

theorem Holds.update (h : Holds capture cs) {l : Nat} (hl : cs.length ≤ l) (slot : CaptureSlot) :
    Holds (Function.update capture l slot) cs := by
  induction cs with
  | nil => trivial
  | cons c cs ih =>
    rw [List.length_cons] at hl
    refine ⟨?_, ih h.2 (by omega)⟩
    rw [Function.update_of_ne (by omega)]
    exact h.1

theorem Holds.get (h : Holds capture cs) {l : Nat} {c : Capture} (hc : cs.reverse[l]? = some c) :
    capture l = c.slot := by
  induction cs with
  | nil => simp at hc
  | cons c' cs ih =>
    rw [List.reverse_cons] at hc
    rcases Nat.lt_or_ge l cs.reverse.length with hl | hl
    · rw [List.getElem?_append_left hl] at hc
      exact ih h.2 hc
    · rw [List.getElem?_append_right hl] at hc
      obtain ⟨hl', rfl⟩ := List.getElem?_eq_some_iff.mp hc
      rw [List.length_reverse] at hl hl'
      obtain rfl : l = cs.length := by
        simp at hl'
        omega
      simpa using h.1

theorem Captures.length_close (s : Nat) (cs : Captures) :
    (Captures.close s cs).length = cs.length := by
  induction cs with
  | nil => rfl
  | cons c cs ih => cases c <;> simp [Captures.close, ih]

/-- `capture_to_close` finds the newest unfinished capture, which can be closed and reopened. -/
theorem unfinishedBelow_ok (hs : ∀ c ∈ cs, c.Before s) (h : Holds ms.capture cs)
    (hopen : (cs.map Capture.isUnfinished).contains true = true) :
    ∃ l start, unfinishedBelow ms cs.length = .ok l ∧ l < cs.length ∧
      ms.capture l = ⟨start, CAP_UNFINISHED⟩ ∧
      Holds (Function.update ms.capture l ⟨start, (s : Int) - start⟩) (Captures.close s cs) ∧
      ∀ capture, Holds capture (Captures.close s cs) →
        Holds (Function.update capture l ⟨(capture l).init, CAP_UNFINISHED⟩) cs := by
  induction cs with
  | nil => simp at hopen
  | cons c cs ih =>
    have hc := hs c (List.mem_cons_self ..)
    obtain ⟨hslot, hrest⟩ := h
    rw [List.length_cons, unfinishedBelow, hslot]
    by_cases hu : c.isUnfinished = true
    · cases c with
      | unfinished start =>
        refine ⟨cs.length, start, if_pos rfl, Nat.lt_succ_self _, hslot, ⟨?_, ?_⟩, ?_⟩
        · rw [Function.update_self]
          rfl
        · exact hrest.update (Nat.le_refl _) _
        · rintro capture ⟨h1, h2⟩
          refine ⟨?_, h2.update (Nat.le_refl _) _⟩
          rw [Function.update_self, h1]
          rfl
      | position _ => cases hu
      | substring _ _ => cases hu
    · have hclose : Captures.close s (c :: cs) = c :: Captures.close s cs := by
        cases c with
        | unfinished _ => exact absurd rfl hu
        | position _ => rfl
        | substring _ _ => rfl
      have hlen := Captures.length_close s cs
      have hopen' : (cs.map Capture.isUnfinished).contains true = true := by
        rw [List.map_cons, List.contains_cons] at hopen
        simpa [hu] using hopen
      obtain ⟨l, start, h1, h2, h3, h4, h5⟩ :=
        ih (fun c hc => hs c (List.mem_cons_of_mem _ hc)) hrest hopen'
      rw [if_neg fun h => hu ((Capture.slot_len hc).mp h), hclose]
      refine ⟨l, start, h1, Nat.lt_succ_of_lt h2, h3, ⟨?_, h4⟩, ?_⟩
      · rw [hlen, Function.update_of_ne (by omega)]
        exact hslot
      · rintro capture ⟨h6, h7⟩
        rw [hlen] at h6
        refine ⟨?_, h5 capture h7⟩
        rw [Function.update_of_ne (by omega)]
        exact h6

end Captures

/-! ## Alternatives -/

/-- A call did what the semantics says: it returned the first success with its captures, or none
with the captures as they were. -/
def Agrees (out : Result) (cs : Captures) (found : List (Nat × Captures)) : Prop :=
  ∃ ms, out = .ok (found.head?.map (·.1), ms) ∧ Rep ms ((found.head?.map (·.2)).getD cs)

section Alternatives

variable {out : Result} {cs : Captures} {found found' : List (Nat × Captures)}

theorem agrees_none {ms : MatchState} (h : Rep ms cs) : Agrees (pure (none, ms)) cs [] :=
  ⟨ms, rfl, h⟩

/-- Another way to match is tried when the first ones fail. -/
theorem Agrees.orElse (h : Agrees out cs found) (next : MatchState → Result)
    (hnext : ∀ ms, Rep ms cs → Agrees (next ms) cs found') :
    Agrees (do let (res, ms) ← out; if res.isSome then pure (res, ms) else next ms) cs
      (found ++ found') := by
  obtain ⟨ms, rfl, hrep⟩ := h
  cases found with
  | nil => exact hnext ms hrep
  | cons e found => exact ⟨ms, rfl, hrep⟩

end Alternatives

/-! ## Captures around a call -/

section Calls

variable {rec : MatchState → Nat → List UInt8 → Result} {ms : MatchState} {s : Nat} {p : List UInt8}
  {cs : Captures} {found : List (Nat × Captures)}

theorem start_capture_agrees {c : Capture} {what : Int} (hslot : c.slot = ⟨s, what⟩)
    (hlevel : cs.length < maxCaptures) (hrep : Rep ms cs)
    (hrec : ∀ ms, Rep ms (c :: cs) → Agrees (rec ms s p) (c :: cs) found) :
    Agrees (start_capture rec ms s p what) cs found := by
  have hnew : Rep { ms.setCapture ms.level ⟨s, what⟩ with level := ms.level + 1 } (c :: cs) := by
    refine ⟨congrArg (· + 1) hrep.level, ?_, hrep.holds.update (Nat.le_of_eq hrep.level.symm) _⟩
    rw [← hrep.level, hslot]
    exact Function.update_self ..
  obtain ⟨ms', hout, hrep'⟩ := hrec _ hnew
  have hlevel' : ¬ ms.level ≥ LUA_MAXCAPTURES := by
    rw [hrep.level]
    exact Nat.not_le.mpr hlevel
  rw [start_capture, if_neg hlevel']
  show Agrees (rec { ms.setCapture ms.level ⟨s, what⟩ with level := ms.level + 1 } s p >>= _) _ _
  rw [hout]
  cases found with
  | nil =>
    refine ⟨{ ms' with level := ms'.level - 1 }, rfl, ?_, hrep'.holds.2⟩
    show ms'.level - 1 = _
    rw [hrep'.level]
    rfl
  | cons e found => exact ⟨ms', rfl, hrep'⟩

theorem end_capture_agrees (hs : ∀ c ∈ cs, c.Before s)
    (hopen : (cs.map Capture.isUnfinished).contains true = true) (hrep : Rep ms cs)
    (hrec : ∀ ms, Rep ms (Captures.close s cs) → Agrees (rec ms s p) (Captures.close s cs) found) :
    Agrees (end_capture rec ms s p) cs found := by
  obtain ⟨l, start, hl, hlt, hcap, hclosed, hreopen⟩ := unfinishedBelow_ok hs hrep.holds hopen
  have hlen : (Captures.close s cs).length = cs.length := Captures.length_close s cs
  have hnew : Rep (ms.setCapture l ⟨start, (s : Int) - start⟩) (Captures.close s cs) :=
    ⟨hrep.level.trans hlen.symm, hclosed⟩
  obtain ⟨ms', hout, hrep'⟩ := hrec _ hnew
  rw [end_capture, capture_to_close, hrep.level, hl, ok_bind]
  simp only [hcap]
  rw [hout]
  cases found with
  | nil =>
    refine ⟨ms'.setCapture l ⟨(ms'.capture l).init, CAP_UNFINISHED⟩, rfl, ?_, ?_⟩
    · exact hrep'.level.trans hlen
    · exact hreopen _ hrep'.holds
  | cons e found => exact ⟨ms', rfl, hrep'⟩

end Calls

/-! ## Repetitions -/

section Repetitions

variable {src : List UInt8} {rec : MatchState → Nat → List UInt8 → Result} {p ep : List UInt8}
  {cl : CharClass} {cs : Captures} {ms : MatchState} {s : Nat} {found : Nat → List (Nat × Captures)}

theorem expandCount_eq (hcl : ClassDenotes p cl ep) (rest : List UInt8) :
    expandCount p ep rest = (rest.takeWhile (CharClass.matches · cl)).length := by
  induction rest with
  | nil => rfl
  | cons c rest ih =>
    rw [expandCount, singlematch_eq hcl, List.takeWhile_cons, ih]
    split_ifs <;> rfl

theorem runLength_le (cl : CharClass) (hs : s ≤ src.length) :
    s + runLength src cl s ≤ src.length := by
  have := (List.takeWhile_prefix (CharClass.matches · cl) (l := src.drop s)).length_le
  rw [List.length_drop] at this
  unfold runLength
  omega

/-- The next character, if it is of the class, and the others. -/
theorem runLength_step (src : List UInt8) (hcl : ClassDenotes p cl ep) (s : Nat) :
    runLength src cl s =
      if decide (s < src.length) && singlematch (srcAt src s) p ep then runLength src cl (s + 1) + 1
      else 0 := by
  rcases Nat.lt_or_ge s src.length with hs | hs
  · have hat : srcAt src s = src[s] := by
      rw [srcAt, List.getD_eq_getElem?_getD, List.getElem?_eq_getElem hs]
      rfl
    rw [runLength, List.drop_eq_getElem_cons hs, List.takeWhile_cons, hat, singlematch_eq hcl]
    simp only [hs, decide_true, Bool.true_and]
    split_ifs <;> rfl
  · rw [runLength, List.drop_eq_nil_of_le hs]
    simp [Nat.not_lt.mpr hs]

section Expand

variable (hrec : ∀ ms s', s ≤ s' → s' ≤ src.length → Rep ms cs →
  Agrees (rec ms s' ep.tail) cs (found s'))
include hrec

theorem maxTry_agrees (n : Nat) (hn : s + n ≤ src.length) (hrep : Rep ms cs) :
    Agrees (maxTry rec ms s ep.tail n) cs
      ((List.range (n + 1)).reverse.flatMap fun n => found (s + n)) := by
  induction n generalizing ms with
  | zero =>
    have := hrec ms s (Nat.le_refl s) hn hrep
    simpa [maxTry] using this
  | succ n ih =>
    rw [List.range_succ, List.reverse_append, List.reverse_singleton, List.singleton_append,
      List.flatMap_cons]
    exact (hrec ms (s + (n + 1)) (by omega) hn hrep).orElse _ fun ms' hrep' => ih (by omega) hrep'

theorem max_expand_agrees (hcl : ClassDenotes p cl ep) (hs : s ≤ src.length) (hrep : Rep ms cs) :
    Agrees (max_expand src rec ms s p ep) cs
      ((List.range (runLength src cl s + 1)).reverse.flatMap fun n => found (s + n)) := by
  rw [max_expand, expandCount_eq hcl]
  exact maxTry_agrees hrec _ (runLength_le cl hs) hrep

end Expand

/-- `min_expand` tries the repetitions from none on. -/
theorem min_expand_agrees (hcl : ClassDenotes p cl ep) (hs : s ≤ src.length)
    (hrec : ∀ ms s', s ≤ s' → s' ≤ src.length → Rep ms cs →
      Agrees (rec ms s' ep.tail) cs (found s'))
    (hrep : Rep ms cs) :
    Agrees (min_expand src rec ms s p ep) cs
      ((List.range (runLength src cl s + 1)).flatMap fun n => found (s + n)) := by
  rw [min_expand]
  generalize hrest : src.drop s = rest
  induction rest generalizing s ms with
  | nil =>
    have hrun : runLength src cl s = 0 := by rw [runLength, hrest]; rfl
    rw [hrun]
    have := hrec ms s (Nat.le_refl s) hs hrep
    simpa [minTry] using this
  | cons c rest ih =>
    have hlt : s < src.length := by
      by_contra hge
      rw [List.drop_eq_nil_of_le (Nat.not_lt.mp hge)] at hrest
      cases hrest
    have hdrop : src.drop (s + 1) = rest := by
      rw [← List.tail_drop, hrest]
      rfl
    have hfirst := hrec ms s (Nat.le_refl s) hs hrep
    have hsplit : ((List.range (runLength src cl s + 1)).flatMap fun n => found (s + n)) =
        found s ++ (if singlematch c p ep then
          (List.range (runLength src cl (s + 1) + 1)).flatMap fun n => found (s + 1 + n) else []) := by
      have hrun : runLength src cl s =
          if singlematch c p ep then runLength src cl (s + 1) + 1 else 0 := by
        rw [runLength, hrest, List.takeWhile_cons, singlematch_eq hcl, runLength, hdrop]
        split_ifs <;> rfl
      rw [List.range_succ_eq_map, List.flatMap_cons, hrun]
      split_ifs
      · rw [List.flatMap_map]
        simp only [Nat.add_zero, Nat.succ_eq_add_one, Nat.add_assoc, Nat.add_comm 1]
      · rfl
    rw [hsplit, minTry]
    refine hfirst.orElse (fun ms =>
      if singlematch c p ep then minTry rec p ep ms rest (s + 1) else pure (none, ms))
      fun ms' hrep' => ?_
    split_ifs
    · exact ih hlt (fun ms s' h1 => hrec ms s' (by omega)) hrep' hdrop
    · exact agrees_none hrep'

theorem matchItem_agrees {q : Quantifier} {rest : List UInt8} (h0 : 0 ∉ p)
    (hcl : ClassDenotes p cl ep) (hq : QuantifierDenotes ep q rest) (hs : s ≤ src.length)
    (hrec : ∀ ms s', s ≤ s' → s' ≤ src.length → Rep ms cs → Agrees (rec ms s' rest) cs (found s'))
    (hrep : Rep ms cs) :
    Agrees (matchItem src rec ms s p) cs
      ((repetitions src cl s q).flatMap fun n => found (s + n)) := by
  have hone := runLength_step src hcl s
  have hle := runLength_le cl hs
  rw [matchItem, classend_eq hcl h0, ok_bind]
  cases hq with
  | optional =>
    simp only [deref_cons, if_true, List.tail_cons, repetitions, hone]
    split_ifs with hm
    · simp only [hm, if_true] at hone
      have hnext := hrec ms (s + 1) (by omega) (by omega) hrep
      have := hnext.orElse (fun ms => rec ms s rest) (hrec · s (Nat.le_refl s) hs)
      simpa using this
    · omega
    · omega
    · simpa using hrec ms s (Nat.le_refl s) hs hrep
  | star =>
    simp only [deref_cons, repetitions]
    rw [if_neg (by simp), if_pos trivial]
    exact max_expand_agrees hrec hcl hs hrep
  | plus =>
    simp only [deref_cons, repetitions, hone]
    rw [if_neg (by simp), if_neg (by simp), if_pos trivial]
    split_ifs with hm
    · simp only [hm, if_true] at hone
      have hlong := max_expand_agrees (s := s + 1) (fun ms s' h1 => hrec ms s' (by omega)) hcl
        (by omega) hrep
      simpa [List.range'_eq_map_range, ← List.map_reverse, List.flatMap_map, Nat.add_assoc]
        using hlong
    · exact agrees_none hrep
  | lazy =>
    simp only [deref_cons, repetitions]
    rw [if_neg (by simp), if_neg (by simp), if_neg (by simp), if_pos trivial]
    exact min_expand_agrees hcl hs hrec hrep
  | once hep =>
    have hne : deref ep ≠ ch '?' ∧ deref ep ≠ ch '*' ∧ deref ep ≠ ch '+' ∧ deref ep ≠ ch '-' := by
      cases ep with
      | nil => simp
      | cons x ep => exact hep x rfl
    rw [if_neg hne.1, if_neg hne.2.1, if_neg hne.2.2.1, if_neg hne.2.2.2]
    simp only [repetitions, hone]
    split_ifs with hm
    · simp only [hm, if_true] at hone
      simpa using hrec ms (s + 1) (by omega) (by omega) hrep
    · omega
    · omega
    · exact agrees_none hrep

end Repetitions

/-! ## Balanced strings, frontiers and references -/

section Atoms

variable {src : List UInt8} {s : Nat}

theorem excess_nil (x y : UInt8) {cont : Nat} (hcont : 1 ≤ cont) : excess x y cont [] = false := by
  simp only [excess, List.count_nil, ite_self, beq_eq_false_iff_ne]
  omega

theorem excess_cons (x y c : UInt8) {cont : Nat} (hcont : 1 ≤ cont) (text : List UInt8) :
    excess x y cont (c :: text) =
      if c = y then excess x y (cont - 1) text
      else if c = x then excess x y (cont + 1) text else excess x y cont text := by
  rw [Bool.eq_iff_iff]
  split_ifs with hy hx <;> simp only [excess, beq_iff_eq, List.count_cons]
  · subst hy
    by_cases hxc : x = c
    · simp [hxc]
      omega
    · simp [hxc, Ne.symm hxc]
      omega
  · subst hx
    simp [hy]
    omega
  · simp [hy, hx]

theorem balanceLoop_eq (x y : UInt8) (rest : List UInt8) (t cont : Nat) (hcont : 1 ≤ cont) :
    balanceLoop x y rest t cont =
      ((List.range (rest.length + 1)).find? fun k => excess x y cont (rest.take k)).map (t + ·) := by
  induction rest generalizing t cont with
  | nil => simp [balanceLoop, excess_nil x y hcont]
  | cons c rest ih =>
    have hmap : ∀ o : Option Nat, o.map ((t + ·) ∘ Nat.succ) = o.map (t + 1 + ·) := by
      intro o
      congr 1
      funext k
      exact (Nat.add_assoc t 1 k ▸ congrArg _ (Nat.add_comm k 1))
    rw [List.length_cons, List.range_succ_eq_map, List.find?_cons, List.take_zero,
      excess_nil x y hcont, List.find?_map, Option.map_map, hmap, balanceLoop]
    simp only [Function.comp_def, List.take_succ_cons, excess_cons x y c hcont]
    split_ifs with hy hc hx
    · subst hc
      rw [List.range_succ_eq_map, List.find?_cons]
      simp [excess]
    · exact ih (t + 1) (cont - 1) (by omega)
    · exact ih (t + 1) (cont + 1) (by omega)
    · exact ih (t + 1) cont hcont

theorem matchbalance_eq {x y : UInt8} (hx : x ≠ 0) (hy : y ≠ 0) (p : List UInt8) :
    matchbalance src s (x :: y :: p) = .ok (balancedEnd src x y s) := by
  rw [matchbalance, deref_cons, List.tail_cons, deref_cons, if_neg (by simp [hx, hy]), balancedEnd]
  by_cases hs : s < src.length
  · have hat : srcAt src s = src[s] := by
      rw [srcAt, List.getD_eq_getElem?_getD, List.getElem?_eq_getElem hs]
      rfl
    have hsome : src[s]? = some x ↔ src[s] = x := by simp [hs]
    rw [hat]
    by_cases hsx : src[s] = x
    · rw [if_neg (not_not.mpr hsx), if_pos (hsome.mpr hsx), balanceLoop_eq x y _ _ _ (Nat.le_refl 1)]
      have hlen : src.length + 1 = (s + 1) + ((src.drop (s + 1)).length + 1) := by
        rw [List.length_drop]
        omega
      have hfront : (List.range (s + 1)).find?
          (fun j => excess x y 1 ((src.take j).drop (s + 1))) = none := by
        rw [List.find?_eq_none]
        intro j hj
        rw [List.mem_range] at hj
        rw [List.drop_eq_nil_of_le (by rw [List.length_take]; omega), excess_nil x y (Nat.le_refl 1)]
        exact Bool.false_ne_true
      rw [hlen, List.range_add (n := s + 1), List.find?_append, hfront, Option.none_or, List.find?_map]
      simp only [Function.comp_def, List.drop_take, Nat.add_sub_cancel_left]
    · rw [if_pos hsx, if_neg (mt hsome.mp hsx)]
  · have hat : srcAt src s = 0 := by
      rw [srcAt, List.getD_eq_getElem?_getD, List.getElem?_eq_none (Nat.not_lt.mp hs)]
      rfl
    have hnone : src[s]? = none := List.getElem?_eq_none (Nat.not_lt.mp hs)
    rw [hat, if_pos (Ne.symm hx), hnone, if_neg (by simp)]

theorem balancedEnd_le {x y : UInt8} {e : Nat} (h : balancedEnd src x y s = some e) :
    s ≤ e ∧ e ≤ src.length := by
  unfold balancedEnd at h
  split_ifs at h
  have hmem := List.mem_of_find?_eq_some h
  have hp := List.find?_some h
  rw [List.mem_range] at hmem
  refine ⟨?_, by omega⟩
  by_contra hlt
  rw [List.drop_eq_nil_of_le (by rw [List.length_take]; omega), excess_nil x y (Nat.le_refl 1)] at hp
  cases hp

theorem occurrence_le {c : Option Capture} {e : Nat} (hs : s ≤ src.length)
    (h : occurrence src s c = some e) : s ≤ e ∧ e ≤ src.length := by
  unfold occurrence at h
  split at h
  · dsimp only at h
    split_ifs at h with hprefix
    have hlen := hprefix.length_le
    simp only [List.length_drop] at hlen
    cases h
    simp only [List.length_drop]
    omega
  · cases h

/-- A reference to a finished capture. -/
theorem match_capture_eq {ms : MatchState} {cs : Captures} {x : UInt8} (hx : ch '1' ≤ x)
    (hrep : Rep ms cs) (hs : ∀ c ∈ cs, c.Before src.length)
    (hfin : (cs.map Capture.isUnfinished).reverse[x.toNat - (ch '1').toNat]? = some false) :
    match_capture src ms s x = .ok (occurrence src s cs.reverse[x.toNat - (ch '1').toNat]?) := by
  generalize hl : x.toNat - (ch '1').toNat = l at hfin
  rw [← List.map_reverse, List.getElem?_map, Option.map_eq_some_iff] at hfin
  obtain ⟨c, hc, hcu⟩ := hfin
  have hmem : c ∈ cs := List.mem_reverse.mp (List.mem_of_getElem? hc)
  have hslot := hrep.holds.get hc
  have hlt : l < cs.length := by
    have := (List.getElem?_eq_some_iff.mp hc).1
    rwa [List.length_reverse] at this
  have hx' : (ch '1').toNat ≤ x.toNat := hx
  have hcheck : check_capture ms x = .ok l := by
    have hint : (x.toNat : Int) - (ch '1').toNat = l := by omega
    have hlen : (ms.capture l).len ≠ CAP_UNFINISHED := by
      rw [hslot, ne_eq, Capture.slot_len (hs c hmem), hcu]
      exact Bool.false_ne_true
    simp only [check_capture, hint, Int.toNat_natCast]
    rw [if_neg]
    rw [hrep.level]
    omega
  rw [match_capture, hcheck, ok_bind, hslot, hc]
  cases c with
  | unfinished _ => cases hcu
  | position start => rfl
  | substring start stop =>
    have hbefore := hs _ hmem
    have hlen : ((stop : Int) - start).toNat = stop - start := by omega
    have htext : (src.take stop).drop start = (src.drop start).take (stop - start) :=
      List.drop_take ..
    have htextlen : ((src.take stop).drop start).length = stop - start := by
      rw [List.length_drop, List.length_take, Nat.min_eq_left hbefore.2]
    simp only [Capture.slot, hlen, occurrence]
    have hnonneg : ¬ (stop : Int) - start < 0 := by
      have := hbefore.1
      omega
    rw [if_neg hnonneg, ← htext]
    simp only [List.prefix_iff_eq_take, htextlen]
    have hiff : (src.length - s ≥ stop - start ∧
        (src.take stop).drop start = (src.drop s).take (stop - start)) ↔
        (src.take stop).drop start = (src.drop s).take (stop - start) := by
      refine ⟨And.right, fun h => ⟨?_, h⟩⟩
      have := congrArg List.length h
      rw [htextlen, List.length_take, List.length_drop] at this
      omega
    simp only [hiff]
    split_ifs <;> rfl

theorem matchFrontier_eq {rec : MatchState → Nat → List UInt8 → Result} {ms : MatchState}
    {p rest : List UInt8} {complement : Bool} {items : List SetItem}
    (h : SetDenotes p complement items rest) (h0 : 0 ∉ p) :
    matchFrontier src rec ms s p =
      if frontierAt src complement items s then rec ms s rest else pure (none, ms) := by
  have hp : deref p = ch '[' := by cases h <;> rfl
  rw [matchFrontier, if_neg (not_not.mpr hp), classend_set h h0, ok_bind]
  simp only [matchbracketclass_eq h, frontierAt, srcAt]
  by_cases h1 : setMatches complement items (if s = 0 then 0 else src.getD (s - 1) 0) = true <;>
    by_cases h2 : setMatches complement items (src.getD s 0) = true <;>
    simp only [h1, h2, true_or, not_true_eq_false, or_self, not_false_eq_true, or_true, if_true,
      Bool.not_true, Bool.not_false, Bool.and_self, Bool.and_true, Bool.and_false,
      Bool.false_eq_true, if_false]

end Atoms

/-! ## Patterns -/

theorem Special.of_deref {p : List UInt8} {x : Char} (hx : deref p = ch x) (h0 : ch x ≠ 0) :
    p.head? = some (ch x) := by
  cases p with
  | nil => exact absurd hx.symm h0
  | cons y p => exact congrArg some hx

/-- A pattern that begins with a single character is matched as an item. -/
theorem matchBody_item {src : List UInt8} {rec : MatchState → Nat → List UInt8 → Result}
    {ms : MatchState} {s : Nat} {p ep : List UInt8} {cl : CharClass} (h0 : 0 ∉ p)
    (hspecial : ¬ Special p) (hcl : ClassDenotes p cl ep) :
    matchBody src rec ms s p = matchItem src rec ms s p := by
  obtain ⟨x, q, rfl⟩ := List.exists_cons_of_ne_nil
    (List.ne_nil_of_length_pos (Nat.zero_lt_of_lt hcl.length_lt))
  simp only [List.mem_cons, not_or] at h0
  simp only [Special, not_or] at hspecial
  obtain ⟨h1, h2, h3, h4⟩ := hspecial
  rw [matchBody, deref_cons, if_neg fun h => h1 (congrArg some h),
    if_neg fun h => h2 (congrArg some h), if_neg (Ne.symm h0.1), List.tail_cons]
  by_cases hesc : x = ch L_ESC
  · have hnext : ∀ y : UInt8, deref q = y → y ≠ 0 → ¬ (y = ch 'b' ∨ y = ch 'f' ∨ isdigit y = true) := by
      intro y hy hy0 hbad
      cases q with
      | nil => exact hy0 hy.symm
      | cons z q => exact h4 ⟨congrArg some hesc, z, rfl, (show z = y from hy) ▸ hbad⟩
    have hzero : isdigit 0 = false := by decide
    have hb : deref q ≠ ch 'b' := fun h => hnext _ h (by simp) (.inl rfl)
    have hf : deref q ≠ ch 'f' := fun h => hnext _ h (by simp) (.inr (.inl rfl))
    have hd : ¬ isdigit (deref q) = true := by
      intro h
      refine hnext _ rfl (fun h' => ?_) (.inr (.inr h))
      rw [h', hzero] at h
      cases h
    rw [if_pos hesc, if_neg hb, if_neg hf, if_neg hd]
  · rw [if_neg hesc]
    by_cases hd : x = ch '$'
    · have hend : deref q ≠ 0 := by
        cases q with
        | nil => exact absurd (by rw [hd]) h3
        | cons z q => exact fun hz => h0.2 (List.mem_cons.mpr (.inl hz.symm))
      rw [if_pos hd, if_neg hend]
    · rw [if_neg hd]

theorem finish_eq (s : Nat) (cs : Captures) :
    finish (cs.map Capture.isUnfinished) = (Captures.close s cs).map Capture.isUnfinished := by
  induction cs with
  | nil => rfl
  | cons c cs ih =>
    cases c with
    | unfinished _ => rfl
    | position _ => exact congrArg (false :: ·) ih
    | substring _ _ => exact congrArg (false :: ·) ih

theorem before_close {s : Nat} {cs : Captures} (h : ∀ c ∈ cs, c.Before s) :
    ∀ c ∈ Captures.close s cs, c.Before s := by
  induction cs with
  | nil => exact h
  | cons c cs ih =>
    have hc := h c (List.mem_cons_self ..)
    have hcs : ∀ c ∈ cs, c.Before s := fun c hc => h c (List.mem_cons_of_mem _ hc)
    cases c with
    | unfinished start => exact List.forall_mem_cons.mpr ⟨⟨hc, Nat.le_refl s⟩, hcs⟩
    | position _ => exact List.forall_mem_cons.mpr ⟨hc, ih hcs⟩
    | substring _ _ => exact List.forall_mem_cons.mpr ⟨hc, ih hcs⟩

section Main

variable {src : List UInt8}

theorem QuantifierDenotes.suffix {p rest : List UInt8} {q : Quantifier}
    (h : QuantifierDenotes p q rest) : rest <:+ p := by
  cases h <;> first | exact List.suffix_cons .. | exact List.suffix_refl _

theorem SetDenotes.suffix {p rest : List UInt8} {complement : Bool} {items : List SetItem}
    (h : SetDenotes p complement items rest) : rest <:+ p := by
  cases h with
  | plain _ hbody =>
    obtain ⟨body, rfl⟩ := hbody.split
    exact ⟨ch '[' :: body ++ [ch ']'], by simp⟩
  | complement hbody =>
    obtain ⟨body, rfl⟩ := hbody.split
    exact ⟨ch '[' :: ch '^' :: body ++ [ch ']'], by simp⟩

theorem ClassDenotes.suffix {p ep : List UInt8} {cl : CharClass} (h : ClassDenotes p cl ep) :
    ep <:+ p := by
  cases h with
  | any => exact List.suffix_cons ..
  | cls => exact (List.suffix_cons ..).trans (List.suffix_cons ..)
  | set h => exact h.suffix
  | char _ _ _ => exact List.suffix_cons ..

/-- With fuel for what is left of the pattern, `match` agrees with the semantics from every state
and position that a match can be in. -/
def Correct (src p : List UInt8) (ast : Ast) : Prop :=
  ∀ (fuel : Nat) (ms : MatchState) (s : Nat) (cs : Captures), p.length < fuel → s ≤ src.length →
    (∀ c ∈ cs, c.Before s) → Ast.check (cs.map Capture.isUnfinished) ast = true →
    Rep ms cs → Agrees (matchFuel src fuel ms s p) cs (successes src ast s cs)

/-- One call, when every call on a shorter pattern is right. -/
theorem Correct.of_step {p q : List UInt8} {ast ast' : Ast} (hlt : q.length < p.length)
    (hq : Correct src q ast')
    (hstep : ∀ (rec : MatchState → Nat → List UInt8 → Result) (ms : MatchState) (s : Nat)
      (cs : Captures), s ≤ src.length → (∀ c ∈ cs, c.Before s) →
      Ast.check (cs.map Capture.isUnfinished) ast = true → Rep ms cs →
      (∀ ms s' cs', s ≤ s' → s' ≤ src.length → (∀ c ∈ cs', c.Before s') →
        Ast.check (cs'.map Capture.isUnfinished) ast' = true → Rep ms cs' →
        Agrees (rec ms s' q) cs' (successes src ast' s' cs')) →
      Agrees (matchBody src rec ms s p) cs (successes src ast s cs)) :
    Correct src p ast := by
  intro fuel ms s cs hfuel hs hcs hcheck hrep
  obtain ⟨fuel, rfl⟩ : ∃ n, fuel = n + 1 := ⟨fuel - 1, by omega⟩
  exact hstep (matchFuel src fuel) ms s cs hs hcs hcheck hrep
    fun ms s' cs' _ hs' hcs' hcheck' hrep' => hq fuel ms s' cs' (by omega) hs' hcs' hcheck' hrep'

theorem correct {p : List UInt8} {ast : Ast} (h : Denotes p ast) (h0 : 0 ∉ p) :
    Correct src p ast := by
  induction h with
  | nil =>
    intro fuel ms s cs hfuel hs hcs hcheck hrep
    obtain ⟨fuel, rfl⟩ : ∃ n, fuel = n + 1 := ⟨fuel - 1, by omega⟩
    exact ⟨ms, rfl, hrep⟩
  | @open_ p ast hp hden ih =>
    simp only [List.mem_cons, not_or] at h0
    refine Correct.of_step (Nat.lt_succ_self _) (ih h0.2) ?_
    intro rec ms s cs hs hcs hcheck hrep hrec
    simp only [Ast.check, Bool.and_eq_true, decide_eq_true_eq, List.length_map] at hcheck
    have hp' : deref p ≠ ch ')' := fun h => hp (Special.of_deref h (by simp))
    rw [matchBody, deref_cons, if_pos rfl, List.tail_cons, if_neg hp']
    refine start_capture_agrees (c := .unfinished s) rfl hcheck.1 hrep fun ms' hrep' => ?_
    refine hrec ms' s _ (Nat.le_refl s) hs ?_ hcheck.2 hrep'
    exact List.forall_mem_cons.mpr ⟨Nat.le_refl s, hcs⟩
  | @position p ast hden ih =>
    simp only [List.mem_cons, not_or] at h0
    refine Correct.of_step (Nat.lt_succ_of_lt (Nat.lt_succ_self _)) (ih h0.2.2) ?_
    intro rec ms s cs hs hcs hcheck hrep hrec
    simp only [Ast.check, Bool.and_eq_true, decide_eq_true_eq, List.length_map] at hcheck
    rw [matchBody, deref_cons, if_pos rfl, List.tail_cons, deref_cons, if_pos rfl, List.tail_cons]
    refine start_capture_agrees (c := .position s) rfl hcheck.1 hrep fun ms' hrep' => ?_
    refine hrec ms' s _ (Nat.le_refl s) hs ?_ hcheck.2 hrep'
    exact List.forall_mem_cons.mpr ⟨Nat.le_refl s, hcs⟩
  | @close p ast hden ih =>
    simp only [List.mem_cons, not_or] at h0
    refine Correct.of_step (Nat.lt_succ_self _) (ih h0.2) ?_
    intro rec ms s cs hs hcs hcheck hrep hrec
    simp only [Ast.check, Bool.and_eq_true] at hcheck
    rw [matchBody, deref_cons, if_neg (by simp), if_pos rfl, List.tail_cons]
    refine end_capture_agrees hcs hcheck.1 hrep fun ms' hrep' => ?_
    exact hrec ms' s _ (Nat.le_refl s) hs (before_close hcs) (finish_eq s cs ▸ hcheck.2) hrep'
  | @balanced x y p ast hden ih =>
    simp only [List.mem_cons, not_or] at h0
    refine Correct.of_step (by simp only [List.length_cons]; omega) (ih h0.2.2.2.2) ?_
    intro rec ms s cs hs hcs hcheck hrep hrec
    rw [matchBody, deref_cons, if_neg (by simp), if_neg (by simp), if_pos rfl, List.tail_cons,
      deref_cons, if_pos rfl, List.tail_cons, matchbalance_eq (Ne.symm h0.2.2.1) (Ne.symm h0.2.2.2.1),
      ok_bind, successes]
    cases hend : balancedEnd src x y s with
    | none => exact agrees_none hrep
    | some e =>
      obtain ⟨he, he'⟩ := balancedEnd_le hend
      have := hrec ms e cs he he' (fun c hc => (hcs c hc).mono he) hcheck hrep
      simpa using this
  | @frontier p rest complement items ast hset hden ih =>
    simp only [List.mem_cons, not_or] at h0
    have hlen := hset.suffix.length_le
    have h0' : 0 ∉ rest := fun h => h0.2.2 (hset.suffix.subset h)
    refine Correct.of_step (by simp only [List.length_cons]; omega) (ih h0') ?_
    intro rec ms s cs hs hcs hcheck hrep hrec
    rw [matchBody, deref_cons, if_neg (by simp), if_neg (by simp), if_pos rfl, List.tail_cons,
      deref_cons, if_neg (by simp), if_pos rfl, List.tail_cons, matchFrontier_eq hset h0.2.2, successes]
    split_ifs
    · exact hrec ms s cs (Nat.le_refl s) hs hcs hcheck hrep
    · exact agrees_none hrep
  | @reference x p ast hx hx' hden ih =>
    simp only [List.mem_cons, not_or] at h0
    refine Correct.of_step (Nat.lt_succ_of_lt (Nat.lt_succ_self _)) (ih h0.2.2) ?_
    intro rec ms s cs hs hcs hcheck hrep hrec
    simp only [Ast.check, Bool.and_eq_true, beq_iff_eq] at hcheck
    have hdigit : isdigit x = true := by
      have : ch '0' ≤ x := Nat.le_trans (by decide) (show (ch '1').toNat ≤ x.toNat from hx)
      simp [isdigit, this, hx']
    have hne : ∀ k : Char, (ch '9').toNat < (ch k).toNat → x ≠ ch k := by
      rintro k hk rfl
      exact Nat.not_le.mpr hk hx'
    have hend : ∀ c ∈ cs, c.Before src.length := fun c hc => (hcs c hc).mono hs
    rw [matchBody, deref_cons, if_neg (by simp), if_neg (by simp), if_pos rfl, List.tail_cons,
      deref_cons, if_neg (hne 'b' (by decide)), if_neg (hne 'f' (by decide)), if_pos hdigit,
      match_capture_eq hx hrep hend hcheck.1, ok_bind, successes]
    cases hocc : occurrence src s cs.reverse[x.toNat - (ch '1').toNat]? with
    | none => exact agrees_none hrep
    | some e =>
      obtain ⟨he, he'⟩ := occurrence_le hs hocc
      have := hrec ms e cs he he' (fun c hc => (hcs c hc).mono he) hcheck.2 hrep
      simpa using this
  | @single p ep rest cl q ast hspecial hcl hq hden ih =>
    have hlen := hq.suffix.length_le
    have hlen' := hcl.length_lt
    have h0' : 0 ∉ rest := fun h => h0 (hcl.suffix.subset (hq.suffix.subset h))
    refine Correct.of_step (Nat.lt_of_le_of_lt hlen hlen') (ih h0') ?_
    intro rec ms s cs hs hcs hcheck hrep hrec
    rw [matchBody_item h0 hspecial hcl, successes]
    have hrec' : ∀ ms s', s ≤ s' → s' ≤ src.length → Rep ms cs →
        Agrees (rec ms s' rest) cs ((fun s' => successes src ast s' cs) s') :=
      fun ms s' hle hs' => hrec ms s' cs hle hs' (fun c hc => (hcs c hc).mono hle) hcheck
    exact matchItem_agrees h0 hcl hq hs hrec' hrep
  | atEnd =>
    intro fuel ms s cs hfuel hs hcs hcheck hrep
    obtain ⟨fuel, rfl⟩ : ∃ n, fuel = n + 1 := ⟨fuel - 1, by omega⟩
    rw [successes, successes]
    show Agrees (matchBody src (matchFuel src fuel) ms s [ch '$']) cs _
    rw [matchBody, deref_cons, if_neg (by simp), if_neg (by simp), if_neg (by simp [L_ESC]),
      if_neg (by simp), if_pos rfl, List.tail_cons, deref_nil, if_pos rfl]
    split_ifs
    · exact ⟨ms, rfl, hrep⟩
    · exact agrees_none hrep

end Main

theorem Holds.captures {capture : Nat → CaptureSlot} {cs : Captures} (h : Holds capture cs) :
    (List.range cs.length).map capture = cs.reverse.map Capture.slot := by
  induction cs with
  | nil => rfl
  | cons c cs ih =>
    rw [List.length_cons, List.range_succ, List.map_append, ih h.2, List.reverse_cons,
      List.map_append, List.map_singleton, List.map_singleton, h.1]

/-- For every subject, well-formed pattern and position in the subject, `match` returns the end
and the captures of the first success, and `NULL` when there is none. -/
theorem do_match_eq {src p : List UInt8} {ast : Ast} (h0 : 0 ∉ p) (hp : Denotes p ast)
    (hcheck : Ast.check [] ast = true) {ms : MatchState} (hms : ms.level = 0) {s : Nat}
    (hs : s ≤ src.length) :
    (do_match src ms s p).map (fun r => r.1.map fun e => (e, r.2.captures)) =
      .ok ((successes src ast s []).head?.map fun r => (r.1, r.2.reverse.map Capture.slot)) := by
  have hrep : Rep ms [] := ⟨hms, trivial⟩
  obtain ⟨ms', hout, hrep'⟩ :=
    correct hp h0 _ ms s [] (Nat.lt_succ_self _) hs (fun _ h => by cases h) hcheck hrep
  rw [do_match, hout]
  cases hfirst : (successes src ast s []).head? with
  | none => rfl
  | some r =>
    rw [hfirst] at hrep'
    have hcaptures : ms'.captures = r.2.reverse.map Capture.slot := by
      rw [MatchState.captures, hrep'.level]
      exact hrep'.holds.captures
    show Except.ok (some (r.1, ms'.captures)) = _
    rw [hcaptures]
    rfl

/-- `(a-)b` on `aab`: the lazy repetition has to take two characters. -/
theorem do_match_eq_lazy :
    (do_match ([ch 'a', ch 'a', ch 'b']) ⟨0, fun _ => ⟨0, 0⟩⟩ 0
      [ch '(', ch 'a', ch '-', ch ')', ch 'b']).map
        (fun r => r.1.map fun e => (e, r.2.captures)) = .ok (some (3, [⟨0, 2⟩])) := by
  have hb : Denotes [ch 'b'] [.single (.char (ch 'b')) .once] :=
    .single (by simp [Special]) (.char (by simp) (by simp) (by simp)) (.once (by simp)) .nil
  have ha : Denotes [ch 'a', ch '-', ch ')', ch 'b']
      [.single (.char (ch 'a')) .lazy, .close, .single (.char (ch 'b')) .once] :=
    .single (by simp [Special]) (.char (by simp) (by simp) (by simp)) .lazy (.close hb)
  exact (do_match_eq (by simp) (.open_ (by simp) ha) (by decide) rfl (by decide)).trans (by decide)

end Luaxx.Pattern
