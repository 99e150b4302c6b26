import Luaxx.Pattern.Match

/-!
# What a call of `match` leaves

A call that fails leaves the captures below its level as they were. A call that succeeds ends in the
subject, and so do all captures then. Each function that calls `match` back is clean if the calls it
makes are, and these are made on a shorter pattern from a position that is no earlier.
-/

namespace Luaxx.Pattern

open Luaxx.Ctype Luaxx.Result

/-- The capture has begun, and ended if it is finished, by the position `e`. -/
def CaptureSlot.EndsBy (e : Nat) (c : CaptureSlot) : Prop :=
  c.init ≤ e ∧ (c.len = CAP_UNFINISHED ∨ c.len = CAP_POSITION ∨ 0 ≤ c.len ∧ c.init + c.len ≤ e)

/-- The captures of a state that has come to the position `s`. -/
structure Inside (ms : MatchState) (s : Nat) : Prop where
  level : ms.level ≤ LUA_MAXCAPTURES
  endsBy : ∀ l < ms.level, (ms.capture l).EndsBy s

instance (e : Nat) (c : CaptureSlot) : Decidable (c.EndsBy e) := by
  unfold CaptureSlot.EndsBy
  infer_instance

instance (ms : MatchState) (s : Nat) : Decidable (Inside ms s) :=
  decidable_of_iff (ms.level ≤ LUA_MAXCAPTURES ∧ ∀ l < ms.level, (ms.capture l).EndsBy s)
    ⟨fun h => ⟨h.1, h.2⟩, fun h => ⟨h.level, h.endsBy⟩⟩

/-- The level, and the captures below it, are the same. -/
structure SameBelow (ms ms' : MatchState) : Prop where
  level : ms'.level = ms.level
  capture : ∀ l < ms.level, ms'.capture l = ms.capture l

def OUT_OF_FUEL : String := "out of fuel"

/-- What a call from the state `ms` and the position `s` leaves, if it returns. -/
def Leaves (src : List UInt8) (ms : MatchState) (s : Nat) : Result → Prop
  | .ok (none, ms') => SameBelow ms ms'
  | .ok (some e, ms') => s ≤ e ∧ e ≤ src.length ∧ Inside ms' e
  | .error msg => msg ≠ OUT_OF_FUEL

/-- Two calls with one outcome, which leaves what it should. -/
structure Clean (src : List UInt8) (ms : MatchState) (s : Nat) (r r' : Result) : Prop where
  eq : r' = r
  leaves : Leaves src ms s r

variable {src : List UInt8} {ms ms' ms'' : MatchState} {s s' : Nat} {p ep : List UInt8}

theorem CaptureSlot.EndsBy.mono {e e' : Nat} {c : CaptureSlot} (h : c.EndsBy e) (he : e ≤ e') :
    c.EndsBy e' := by
  obtain ⟨hinit, hlen⟩ := h
  refine ⟨hinit.trans he, ?_⟩
  omega

theorem Inside.mono (h : Inside ms s) (hs : s ≤ s') : Inside ms s' :=
  ⟨h.level, fun l hl => (h.endsBy l hl).mono hs⟩

theorem Inside.same (h : Inside ms s) (hsame : SameBelow ms ms') : Inside ms' s := by
  constructor
  · rw [hsame.level]
    exact h.level
  · intro l hl
    rw [hsame.level] at hl
    rw [hsame.capture l hl]
    exact h.endsBy l hl

theorem SameBelow.refl (ms : MatchState) : SameBelow ms ms := ⟨rfl, fun _ _ => rfl⟩

theorem SameBelow.trans (h : SameBelow ms ms') (h' : SameBelow ms' ms'') : SameBelow ms ms'' := by
  constructor
  · exact h'.level.trans h.level
  · intro l hl
    exact (h'.capture l (by rw [h.level]; exact hl)).trans (h.capture l hl)

theorem Leaves.mono {r : Result} (h : Leaves src ms s' r) (hs : s ≤ s') : Leaves src ms s r := by
  match r with
  | .error _ => exact h
  | .ok (none, _) => exact h
  | .ok (some e, _) => exact ⟨hs.trans h.1, h.2⟩

theorem Leaves.same {r : Result} (h : Leaves src ms' s r) (hsame : SameBelow ms ms') :
    Leaves src ms s r := by
  match r with
  | .error _ => exact h
  | .ok (none, _) => exact hsame.trans h
  | .ok (some e, _) => exact h

theorem Clean.mono {r r' : Result} (h : Clean src ms s' r r') (hs : s ≤ s') : Clean src ms s r r' :=
  ⟨h.eq, h.leaves.mono hs⟩

theorem clean_none (src : List UInt8) (ms : MatchState) (s : Nat) :
    Clean src ms s (pure (none, ms)) (pure (none, ms)) := ⟨rfl, SameBelow.refl ms⟩

theorem clean_error {msg : String} (h : msg ≠ OUT_OF_FUEL) :
    Clean src ms s (.error msg) (.error msg) := ⟨rfl, h⟩

/-- When the first call fails, another one is made from the state that it leaves. -/
theorem Clean.orElse {r r' : Result} (f f' : MatchState → Result) (h : Clean src ms s r r')
    (hf : ∀ ms', SameBelow ms ms' → Clean src ms' s (f ms') (f' ms')) :
    Clean src ms s
      (do
        let (res, ms) ← r
        if res.isSome then pure (res, ms) else f ms)
      (do
        let (res, ms) ← r'
        if res.isSome then pure (res, ms) else f' ms) := by
  obtain ⟨rfl, hleaves⟩ := h
  match r' with
  | .error _ => exact ⟨rfl, hleaves⟩
  | .ok (none, ms') => exact ⟨(hf ms' hleaves).eq, (hf ms' hleaves).leaves.same hleaves⟩
  | .ok (some e, ms') => exact ⟨rfl, hleaves⟩

/-- When the call fails, what was changed before it is undone. -/
theorem Clean.undo {r r' : Result} (f : MatchState → MatchState) (h : Clean src ms' s r r')
    (hf : ∀ ms'', SameBelow ms' ms'' → SameBelow ms (f ms'')) :
    Clean src ms s
      (do
        let (res, ms) ← r
        pure (res, if res.isNone then f ms else ms))
      (do
        let (res, ms) ← r'
        pure (res, if res.isNone then f ms else ms)) := by
  obtain ⟨rfl, hleaves⟩ := h
  match r' with
  | .error _ => exact ⟨rfl, hleaves⟩
  | .ok (none, ms'') => exact ⟨rfl, hf ms'' hleaves⟩
  | .ok (some e, ms'') => exact ⟨rfl, hleaves⟩

/-- An error of a computation that comes first. -/
theorem Clean.bind {α : Type} {x : Except String α} {Q : α → Prop} {f f' : α → Result}
    (hx : Yields (· ≠ OUT_OF_FUEL) Q x) (hf : ∀ a, Q a → Clean src ms s (f a) (f' a)) :
    Clean src ms s (x >>= f) (x >>= f') := by
  cases x with
  | error msg => exact ⟨rfl, hx⟩
  | ok a => exact hf a hx

/-! ## Reading the pattern -/

theorem setEnd_spec (p : List UInt8) :
    Yields (· ≠ OUT_OF_FUEL) (fun ep => ep.length < p.length) (setEnd p) := by
  fun_induction setEnd p with
  | case1 => exact (by decide : "malformed pattern (missing ']')" ≠ OUT_OF_FUEL)
  | case2 => exact (by decide : "malformed pattern (missing ']')" ≠ OUT_OF_FUEL)
  | case3 => exact (by decide : "malformed pattern (missing ']')" ≠ OUT_OF_FUEL)
  | case4 x hx y q hesc hend =>
    show q.tail.length < _
    rw [List.length_tail, List.length_cons, List.length_cons]
    omega
  | case5 x hx y q hesc hend ih =>
    refine ih.imp fun ep hep => ?_
    rw [List.length_cons, List.length_cons]
    omega
  | case6 x hx q hesc =>
    show q.length < _
    rw [List.length_cons, List.length_cons]
    omega
  | case7 x hx y q hesc hend ih =>
    refine ih.imp fun ep hep => ?_
    rw [List.length_cons]
    exact Nat.lt_succ_of_lt hep

theorem deref_ne_zero (h : deref p ≠ 0) : 0 < p.length := by
  cases p with
  | nil => exact absurd rfl h
  | cons x p => exact Nat.succ_pos _

/-- An item that is not the end of the pattern has an end behind it. -/
theorem classend_spec (h : deref p ≠ 0) :
    Yields (· ≠ OUT_OF_FUEL) (fun ep => ep.length < p.length) (classend p) := by
  have hpos := deref_ne_zero h
  unfold classend
  split_ifs
  · exact (by decide : "malformed pattern (ends with '%')" ≠ OUT_OF_FUEL)
  · show p.tail.tail.length < _
    rw [List.length_tail, List.length_tail]
    omega
  · refine (setEnd_spec _).imp fun ep hep => ?_
    rw [List.length_tail, List.length_tail] at hep
    omega
  · refine (setEnd_spec _).imp fun ep hep => ?_
    rw [List.length_tail] at hep
    omega
  · show p.tail.length < _
    rw [List.length_tail]
    omega

/-! ## Calls that call back -/

section Callbacks

variable {rec rec' : MatchState → Nat → List UInt8 → Result}

/-- Calls on the patterns shorter than `p` are clean, if they are made inside the subject. -/
def CleanOn (src : List UInt8) (p : List UInt8) (rec rec' : MatchState → Nat → List UInt8 → Result) :
    Prop :=
  ∀ ms s q, q.length < p.length → s ≤ src.length → Inside ms s →
    Clean src ms s (rec ms s q) (rec' ms s q)

theorem expandCount_le (p ep rest : List UInt8) : expandCount p ep rest ≤ rest.length := by
  induction rest with
  | nil => exact le_rfl
  | cons c rest ih =>
    rw [expandCount]
    split_ifs
    · exact Nat.succ_le_succ ih
    · exact Nat.zero_le _

theorem maxTry_clean (hrec : CleanOn src p rec rec') {q : List UInt8} (hq : q.length < p.length) {n : Nat}
    (hn : s + n ≤ src.length) (h : Inside ms s) : Clean src ms s (maxTry rec ms s q n) (maxTry rec' ms s q n) := by
  induction n generalizing ms with
  | zero => exact hrec ms s q hq hn h
  | succ n ih =>
    have hclean := hrec ms (s + (n + 1)) q hq hn (h.mono (by omega))
    refine Clean.orElse (fun ms => maxTry rec ms s q n) (fun ms => maxTry rec' ms s q n)
      (hclean.mono (Nat.le_add_right s (n + 1))) fun ms' hsame => ?_
    exact ih (by omega) (h.same hsame)

theorem max_expand_clean (hrec : CleanOn src p rec rec') (hep : ep.length < p.length)
    (hs : s ≤ src.length) (h : Inside ms s) : Clean src ms s (max_expand src rec ms s p ep) (max_expand src rec' ms s p ep) := by
  have hcount := expandCount_le p ep (src.drop s)
  rw [List.length_drop] at hcount
  exact maxTry_clean hrec (by rw [List.length_tail]; omega) (by omega) h

theorem minTry_clean (hrec : CleanOn src p rec rec') (hep : ep.length < p.length) {rest : List UInt8}
    (hs : s + rest.length = src.length) (h : Inside ms s) :
    Clean src ms s (minTry rec p ep ms rest s) (minTry rec' p ep ms rest s) := by
  have htail : ep.tail.length < p.length := by
    rw [List.length_tail]
    omega
  induction rest generalizing ms s with
  | nil => exact hrec ms s _ htail hs.le h
  | cons c rest ih =>
    rw [List.length_cons] at hs
    refine Clean.orElse
      (fun ms => if singlematch c p ep then minTry rec p ep ms rest (s + 1) else pure (none, ms))
      (fun ms => if singlematch c p ep then minTry rec' p ep ms rest (s + 1) else pure (none, ms))
      (hrec ms s _ htail (by omega) h) fun ms' hsame => ?_
    split_ifs
    · exact (ih (by omega) ((h.same hsame).mono (Nat.le_succ s))).mono (Nat.le_succ s)
    · exact clean_none src ms' s

theorem min_expand_clean (hrec : CleanOn src p rec rec') (hep : ep.length < p.length)
    (hs : s ≤ src.length) (h : Inside ms s) : Clean src ms s (min_expand src rec ms s p ep) (min_expand src rec' ms s p ep) :=
  minTry_clean hrec hep (by rw [List.length_drop]; omega) h

theorem start_capture_clean (hrec : CleanOn src p rec rec') {q : List UInt8} (hq : q.length < p.length)
    {what : Int} (hwhat : what = CAP_UNFINISHED ∨ what = CAP_POSITION) (hs : s ≤ src.length)
    (h : Inside ms s) : Clean src ms s (start_capture rec ms s q what) (start_capture rec' ms s q what) := by
  rw [start_capture, start_capture]
  split_ifs with hlevel
  · exact clean_error (by decide)
  · have hopened : Inside { ms.setCapture ms.level ⟨s, what⟩ with level := ms.level + 1 } s := by
      refine ⟨Nat.lt_of_not_ge hlevel, fun l hl => ?_⟩
      show CaptureSlot.EndsBy s (Function.update ms.capture ms.level ⟨s, what⟩ l)
      rw [Function.update_apply]
      split_ifs with heq
      · exact ⟨le_rfl, hwhat.imp_right .inl⟩
      · exact h.endsBy l (by
          have : l < ms.level + 1 := hl
          omega)
    -- the capture is undone with its level
    refine Clean.undo (fun ms => { ms with level := ms.level - 1 })
      (hrec _ s q hq hs hopened) fun ms' hsame => ⟨?_, fun l hl => ?_⟩
    · show ms'.level - 1 = ms.level
      rw [hsame.level]
      rfl
    · refine (hsame.capture l (Nat.lt_succ_of_lt hl)).trans ?_
      exact Function.update_of_ne (by omega) _ _

theorem unfinishedBelow_spec (ms : MatchState) (level : Nat) :
    Yields (· ≠ OUT_OF_FUEL) (fun l => l < level ∧ (ms.capture l).len = CAP_UNFINISHED)
      (unfinishedBelow ms level) := by
  induction level with
  | zero => exact (by decide : "invalid pattern capture" ≠ OUT_OF_FUEL)
  | succ level ih =>
    rw [unfinishedBelow]
    split_ifs with hlen
    · exact ⟨Nat.lt_succ_self _, hlen⟩
    · exact ih.imp fun l hl => ⟨Nat.lt_succ_of_lt hl.1, hl.2⟩

theorem end_capture_clean (hrec : CleanOn src p rec rec') {q : List UInt8} (hq : q.length < p.length)
    (hs : s ≤ src.length) (h : Inside ms s) : Clean src ms s (end_capture rec ms s q) (end_capture rec' ms s q) := by
  have hfind := unfinishedBelow_spec ms ms.level
  rw [end_capture, end_capture, capture_to_close]
  cases hclose : unfinishedBelow ms ms.level with
  | error msg =>
    rw [hclose] at hfind
    exact clean_error hfind
  | ok l =>
    obtain ⟨hl, hlen⟩ := hfind.ok_of_eq hclose
    have hinit := (h.endsBy l hl).1
    have hclosed :
        Inside (ms.setCapture l ⟨(ms.capture l).init, (s : Int) - (ms.capture l).init⟩) s := by
      refine ⟨h.level, fun l' hl' => ?_⟩
      show CaptureSlot.EndsBy s (Function.update ms.capture l _ l')
      rw [Function.update_apply]
      split_ifs with heq
      · refine ⟨hinit, .inr (.inr ⟨?_, ?_⟩)⟩
        · show (0 : Int) ≤ s - (ms.capture l).init
          omega
        · show ((ms.capture l).init : Int) + (s - (ms.capture l).init) ≤ s
          omega
      · exact h.endsBy l' hl'
    -- the capture is not finished any more, and its beginning was left
    refine Clean.undo (fun ms => ms.setCapture l ⟨(ms.capture l).init, CAP_UNFINISHED⟩)
      (hrec _ s q hq hs hclosed) fun ms' hsame => ⟨hsame.level, fun l' hl' => ?_⟩
    show Function.update ms'.capture l _ l' = _
    rw [Function.update_apply]
    split_ifs with heq
    · subst heq
      rw [hsame.capture l' hl']
      show (⟨(Function.update ms.capture l' _ l').init, CAP_UNFINISHED⟩ : CaptureSlot) = _
      rw [Function.update_self, ← hlen]
    · rw [hsame.capture l' hl']
      exact Function.update_of_ne heq _ _

theorem matchItem_clean (hrec : CleanOn src p rec rec') (hp : deref p ≠ 0) (hs : s ≤ src.length)
    (h : Inside ms s) : Clean src ms s (matchItem src rec ms s p) (matchItem src rec' ms s p) := by
  rw [matchItem, matchItem]
  refine Clean.bind (classend_spec hp) fun ep hep => ?_
  have htail : ep.tail.length < p.length := by
    rw [List.length_tail]
    omega
  dsimp only
  have hnext : (decide (s < src.length) && singlematch (srcAt src s) p ep) = true →
      s + 1 ≤ src.length := by
    intro hm
    rw [Bool.and_eq_true, decide_eq_true_eq] at hm
    exact hm.1
  split_ifs with hopt hm hstar hplus hm hminus hm
  · -- optional
    refine Clean.orElse (fun ms => rec ms s ep.tail) (fun ms => rec' ms s ep.tail)
      ((hrec ms (s + 1) _ htail (hnext hm) (h.mono (Nat.le_succ s))).mono (Nat.le_succ s))
      fun ms' hsame => ?_
    exact hrec ms' s _ htail hs (h.same hsame)
  · exact hrec ms s _ htail hs h
  · exact max_expand_clean hrec hep hs h
  · exact (max_expand_clean hrec hep (hnext hm) (h.mono (Nat.le_succ s))).mono (Nat.le_succ s)
  · exact clean_none src ms s
  · exact min_expand_clean hrec hep hs h
  · exact (hrec ms (s + 1) _ hep (hnext hm) (h.mono (Nat.le_succ s))).mono (Nat.le_succ s)
  · exact clean_none src ms s

theorem balanceLoop_range {b e : UInt8} {rest : List UInt8} {t cont r : Nat}
    (h : balanceLoop b e rest t cont = some r) : t < r ∧ r ≤ t + rest.length := by
  induction rest generalizing t cont with
  | nil => cases h
  | cons x rest ih =>
    rw [balanceLoop] at h
    rw [List.length_cons]
    split_ifs at h
    · cases h
      omega
    · have := ih h
      omega
    · have := ih h
      omega
    · have := ih h
      omega

theorem matchbalance_spec {q : List UInt8} (hs : s ≤ src.length) :
    Yields (· ≠ OUT_OF_FUEL) (fun r => ∀ e, r = some e → s ≤ e ∧ e ≤ src.length)
      (matchbalance src s q) := by
  rw [matchbalance]
  split_ifs with hend hne
  · exact (by decide : "unbalanced pattern" ≠ OUT_OF_FUEL)
  · intro e he
    cases he
  · intro e he
    have hlt : s < src.length := by
      by_contra hge
      have hzero : srcAt src s = 0 := by
        rw [srcAt, List.getD_eq_getElem?_getD, List.getElem?_eq_none (by omega)]
        rfl
      rw [hzero] at hne
      exact hend (.inl (not_not.mp hne).symm)
    have hrange := balanceLoop_range he
    rw [List.length_drop] at hrange
    omega

theorem match_capture_spec {l : UInt8} (hs : s ≤ src.length) :
    Yields (· ≠ OUT_OF_FUEL) (fun r => ∀ e, r = some e → s ≤ e ∧ e ≤ src.length)
      (match_capture src ms s l) := by
  rw [match_capture]
  have hcheck : Yields (· ≠ OUT_OF_FUEL) (fun _ => True) (check_capture ms l) := by
    rw [check_capture]
    split_ifs
    · exact (by decide : "invalid capture index" ≠ OUT_OF_FUEL)
    · trivial
  refine hcheck.bind fun l _ => ?_
  dsimp only
  split_ifs with hneg hfits
  · intro e he
    cases he
  · intro e he
    cases he
    omega
  · intro e he
    cases he

theorem matchFrontier_clean (hrec : CleanOn src p rec rec') {q : List UInt8} (hq : q.length ≤ p.length)
    (hs : s ≤ src.length) (h : Inside ms s) : Clean src ms s (matchFrontier src rec ms s q) (matchFrontier src rec' ms s q) := by
  rw [matchFrontier, matchFrontier]
  by_cases hset : deref q ≠ ch '['
  · rw [if_pos hset, if_pos hset]
    exact clean_error (by decide)
  · rw [if_neg hset, if_neg hset]
    rw [not_not] at hset
    refine Clean.bind (classend_spec (by rw [hset]; decide)) fun ep hep => ?_
    have hnext : Clean src ms s (rec ms s ep) (rec' ms s ep) := hrec ms s ep (by omega) hs h
    dsimp only
    split_ifs
    · exact clean_none src ms s
    · exact hnext
    · exact clean_none src ms s
    · exact hnext

/-- One call of `match`. -/
theorem matchBody_clean (hrec : CleanOn src p rec rec') (hs : s ≤ src.length) (h : Inside ms s) :
    Clean src ms s (matchBody src rec ms s p) (matchBody src rec' ms s p) := by
  have htail : ∀ {c : Char}, ch c ≠ 0 → deref p = ch c → p.tail.length < p.length := by
    intro c hc hp
    have := deref_ne_zero (p := p) (by rw [hp]; exact hc)
    rw [List.length_tail]
    omega
  have htail2 : p.tail.length < p.length → p.tail.tail.length < p.length := by
    intro hlt
    rw [List.length_tail]
    omega
  rw [matchBody, matchBody]
  split_ifs with hopen hposition hclose hesc hbalance hfrontier hdigit hend hdollar hlast hat
  · exact start_capture_clean hrec (htail2 (htail (by decide) hopen)) (.inr rfl) hs h
  · exact start_capture_clean hrec (htail (by decide) hopen) (.inl rfl) hs h
  · exact end_capture_clean hrec (htail (by decide) hclose) hs h
  · have hlt := htail (by decide) hesc
    refine Clean.bind (matchbalance_spec hs) fun r hr => ?_
    cases r with
    | none => exact clean_none src ms s
    | some e =>
      obtain ⟨hle, hin⟩ := hr e rfl
      have hdrop : (p.drop 4).length < p.length := by
        rw [List.length_tail] at hlt
        rw [List.length_drop]
        omega
      exact (hrec ms e _ hdrop hin (h.mono hle)).mono hle
  · exact matchFrontier_clean hrec (htail2 (htail (by decide) hesc)).le hs h
  · refine Clean.bind (match_capture_spec hs) fun r hr => ?_
    cases r with
    | none => exact clean_none src ms s
    | some e =>
      obtain ⟨hle, hin⟩ := hr e rfl
      exact (hrec ms e _ (htail2 (htail (by decide) hesc)) hin (h.mono hle)).mono hle
  · exact matchItem_clean hrec (by rw [hesc]; decide) hs h
  · exact ⟨rfl, le_rfl, hs, h⟩
  · exact ⟨rfl, le_rfl, hs, h⟩
  · exact clean_none src ms s
  · exact matchItem_clean hrec hend hs h
  · exact matchItem_clean hrec hend hs h

end Callbacks

/-- `match` where every call from a state that is not inside the subject is refused. -/
def insideFuel (src : List UInt8) : Nat → MatchState → Nat → List UInt8 → Result
  | 0, _, _, _ => .error OUT_OF_FUEL
  | fuel + 1, ms, s, p =>
    if Inside ms s ∧ s ≤ src.length then matchBody src (insideFuel src fuel) ms s p
    else .error OUT_OF_FUEL

/-- Every call with enough fuel is clean, and no call that it makes is refused. -/
theorem matchFuel_clean {fuel : Nat} (hfuel : p.length < fuel) (hs : s ≤ src.length)
    (h : Inside ms s) : Clean src ms s (matchFuel src fuel ms s p) (insideFuel src fuel ms s p) := by
  induction fuel generalizing ms s p with
  | zero => exact absurd hfuel (Nat.not_lt_zero _)
  | succ fuel ih =>
    rw [matchFuel, insideFuel, if_pos ⟨h, hs⟩]
    refine matchBody_clean (fun ms s q hq hs h => ih ?_ hs h) hs h
    omega

/-- Before the first capture. -/
theorem inside_start (capture : Nat → CaptureSlot) (s : Nat) : Inside ⟨0, capture⟩ s :=
  ⟨Nat.zero_le _, fun l hl => absurd hl (Nat.not_lt_zero l)⟩

end Luaxx.Pattern
