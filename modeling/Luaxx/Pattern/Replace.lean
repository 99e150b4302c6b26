import Luaxx.Lib.Scan
import Luaxx.Pattern.Captures
import Luaxx.Pattern.Strlib

/-!
# One match after the other

`gsub` and `gmatch` scan the subject for matches. Where `match` raises no error, what is found
depends on the subject and the pattern only, and the replacements are computed in its order.
-/

namespace Luaxx.Pattern

open Luaxx.Ctype Luaxx.Int32 Luaxx.Result Luaxx.Scan Luaxx.Vm

variable {src p : List UInt8} {ms ms' : MatchState} {s e : Nat} {slots : List CaptureSlot}

/-! ## What is found -/

/-- A state with the captures. -/
def stateOf (slots : List CaptureSlot) : MatchState :=
  ⟨slots.length, fun i => slots.getD i ⟨0, 0⟩⟩

theorem stateOf_captures (ms : MatchState) : SameBelow (stateOf ms.captures) ms := by
  have hlevel : ms.captures.length = ms.level := by
    rw [MatchState.captures, List.length_map, List.length_range]
  refine ⟨hlevel.symm, fun i hi => ?_⟩
  have hi' : i < ms.level := hlevel ▸ hi
  show ms.capture i = ms.captures.getD i ⟨0, 0⟩
  rw [List.getD_eq_getElem?_getD, MatchState.captures, List.getElem?_map,
    List.getElem?_eq_getElem (by rwa [List.length_range]), List.getElem_range]
  rfl

/-- The match from a position, if there is one. -/
def matchAt (src p : List UInt8) (s : Nat) : Option (Nat × List CaptureSlot) :=
  match do_match src ⟨0, fun _ => ⟨0, 0⟩⟩ s p with
  | .ok (some e, ms) => some (e, ms.captures)
  | _ => none

/-- `match` raises no error on the pattern, whatever the stack holds. -/
def NoErrors (src p : List UInt8) : Prop :=
  ∀ garbage : Nat → CaptureSlot, ∀ s ≤ src.length, ∃ r, do_match src ⟨0, garbage⟩ s p = .ok r

theorem do_match_matchAt (h : NoErrors src p) (capture : Nat → CaptureSlot) (hs : s ≤ src.length) :
    ∃ ms, do_match src ⟨0, capture⟩ s p = .ok ((matchAt src p s).map Prod.fst, ms) ∧
      ∀ e slots, matchAt src p s = some (e, slots) → SameBelow (stateOf slots) ms := by
  obtain ⟨⟨res, ms⟩, heq⟩ := h capture s hs
  obtain ⟨⟨res', ms'⟩, heq'⟩ := h (fun _ => ⟨0, 0⟩) s hs
  have hagree := do_match_indifferent src p s (fun _ => ⟨0, 0⟩) capture
  rw [heq, heq'] at hagree
  obtain ⟨rfl, hsame⟩ : res = res' ∧ SameBelow ms' ms := hagree
  rw [matchAt, heq', heq]
  cases res with
  | none => exact ⟨ms, rfl, fun e slots h => by cases h⟩
  | some e =>
    refine ⟨ms, rfl, fun e slots h => ?_⟩
    cases h
    exact (stateOf_captures ms').trans hsame

theorem bounded_matchAt (src p : List UInt8) : Bounded (matchAt src p) src.length := by
  intro s e slots hs h
  have hclean := (matchFuel_clean (p := p) (Nat.lt_succ_self _) hs
    (inside_start (fun _ => ⟨0, 0⟩) s)).leaves
  rw [← do_match] at hclean
  rw [matchAt] at h
  cases hmatch : do_match src ⟨0, fun _ => ⟨0, 0⟩⟩ s p with
  | error msg =>
    rw [hmatch] at h
    cases h
  | ok r =>
    obtain ⟨_ | e', ms⟩ := r
    · rw [hmatch] at h
      cases h
    · rw [hmatch] at h hclean
      cases h
      exact ⟨hclean.1, hclean.2.1⟩

/-- An anchored search is made at the beginning only. -/
def searchAt (anchor : Bool) (src p : List UInt8) (s : Nat) : Option (Nat × List CaptureSlot) :=
  if anchor && decide (s ≠ 0) then none else matchAt src p s

theorem bounded_searchAt (anchor : Bool) (src p : List UInt8) :
    Bounded (searchAt anchor src p) src.length := by
  intro s e slots hs h
  rw [searchAt] at h
  split_ifs at h
  exact bounded_matchAt src p s e slots hs h

/-- All matches from a position on. -/
def matchesFrom (anchor : Bool) (src p : List UInt8) (s : Nat) : List (Found (List CaptureSlot)) :=
  scan (searchAt anchor src p) src.length s

theorem matchesFrom_anchored (hs : s ≠ 0) : matchesFrom true src p s = [] := by
  rw [matchesFrom, List.eq_nil_iff_forall_not_mem]
  intro m hm
  obtain ⟨h1, -, -, h⟩ := scan_sound (bounded_searchAt true src p) s m hm
  rw [searchAt, Bool.true_and, if_pos (by rw [decide_eq_true_eq]; omega)] at h
  cases h

/-! ## Captures of equal states -/

theorem push_onecapture_congr (h : SameBelow ms ms') (i : Nat) :
    push_onecapture src ms' i s e = push_onecapture src ms i s e := by
  rw [push_onecapture, push_onecapture, h.level]
  by_cases hi : i ≥ ms.level
  · rw [if_pos hi, if_pos hi]
  · rw [if_neg hi, if_neg hi, h.capture i (by omega)]

theorem push_captures_congr (h : SameBelow ms ms') (s : Option Nat) :
    push_captures src ms' s e = push_captures src ms s e := by
  rw [push_captures, push_captures, h.level]
  simp only [push_onecapture_congr h]

section

variable {σ ε : Type} (host : Host σ ε) (repl : Repl σ ε)

theorem add_s_congr (h : SameBelow ms ms') :
    ∀ news : List UInt8, add_s host src ms' s e news = add_s host src ms s e news
  | [] => rfl
  | [c] => by simp only [add_s]
  | c :: d :: news => by
    have hc := add_s_congr h (d :: news)
    have hd := add_s_congr h news
    rw [add_s.eq_def, add_s.eq_def host src ms s e (c :: d :: news)]
    simp only [hc, hd, push_onecapture_congr h]

theorem add_value_congr (h : SameBelow ms ms') :
    add_value host repl src ms' s e = add_value host repl src ms s e := by
  cases repl with
  | string news => rw [add_value, add_value, add_s_congr host h]
  | function call => rw [add_value, add_value, push_captures_congr h]
  | table get => rw [add_value, add_value, push_onecapture_congr h]

/-! ## `gsub` -/

/-- What `gsub` does with what was found: the replacements in their order, and then the text. -/
def replaceAll (src b : List UInt8) (s n : Nat) (found : List (Found (List CaptureSlot))) :
    LuaM σ ε (Option (List UInt8 × Nat)) := do
  let pieces ← found.mapM fun m => add_value host repl src (stateOf m.what) m.start m.stop
  pure (some (b ++ replaced src s (found.zip pieces), n + found.length))

theorem replaceAll_cons (b : List UInt8) (n : Nat) (m : Found (List CaptureSlot))
    (found : List (Found (List CaptureSlot))) :
    replaceAll host repl src b s n (m :: found) =
      add_value host repl src (stateOf m.what) m.start m.stop >>= fun piece =>
        replaceAll host repl src (b ++ slice src s m.start ++ piece) m.stop (n + 1) found := by
  simp only [replaceAll, List.mapM_cons, bind_assoc, pure_bind, List.zip_cons_cons, replaced, slice,
    List.append_assoc, List.length_cons, Nat.add_comm found.length 1, Nat.add_assoc]

variable (src) in
theorem replaceAll_skip {s' : Nat} (b : List UInt8) (n : Nat)
    {found : List (Found (List CaptureSlot))} (hs : s ≤ s') (hfound : ∀ m ∈ found, s' ≤ m.start) :
    replaceAll host repl src b s n found =
      replaceAll host repl src (b ++ slice src s s') s' n found := by
  rw [replaceAll, replaceAll]
  refine congrArg _ (funext fun pieces => ?_)
  rw [replaced_skip hs, slice, List.append_assoc]
  intro m hm
  exact hfound m.1 (List.of_mem_zip hm).1

theorem start_of_mem_take (src p : List UInt8) (anchor : Bool) (k : Nat) :
    ∀ m ∈ (matchesFrom anchor src p s).take k, s ≤ m.start :=
  fun m hm => (scan_sound (bounded_searchAt anchor src p) _ m (List.mem_of_mem_take hm)).1

theorem slice_succ (hs : s < src.length) : slice src s (s + 1) = [srcAt src s] := by
  rw [slice, Nat.add_sub_cancel_left, srcAt, List.getD_eq_getElem?_getD,
    List.getElem?_eq_getElem hs, List.drop_eq_getElem_cons hs]
  rfl

/-- What comes after the loop. -/
def finished (src : List UInt8) (out : Option (List UInt8 × Nat × Nat)) :
    Option (List UInt8 × Nat) :=
  out.map fun (b, s, n) => (b ++ src.drop s, n)

theorem finish_replaceAll (b : List UInt8) (s n : Nat) :
    (pure (finished src (some (b, s, n))) : LuaM σ ε _) = replaceAll host repl src b s n [] := by
  rw [replaceAll, List.mapM_nil, pure_bind]
  rfl

theorem take_toNat_succ {max_s : Int} {n : Nat} (hn : (n : Int) < max_s) :
    (max_s - n).toNat = (max_s - (n + 1 : Nat)).toNat + 1 := by omega

/-- The loop of `str_gsub`. -/
theorem gsubLoop_eq (h : NoErrors src p) {max_s : Int} {anchor : Bool} (fuel n : Nat)
    (capture : Nat → CaptureSlot) {level : Nat} {b : List UInt8} (hfuel : src.length < fuel + s)
    (hs : s ≤ src.length) (hanchor : anchor = true → s = 0) :
    finished src <$> gsubLoop host repl src max_s anchor p fuel n ⟨level, capture⟩ s b =
      replaceAll host repl src b s n ((matchesFrom anchor src p s).take (max_s - n).toNat) := by
  induction fuel generalizing n level capture s b with
  | zero => omega
  | succ fuel ih =>
    rw [gsubLoop]
    by_cases hn : (n : Int) < max_s
    swap
    · have hzero : (max_s - n).toNat = 0 := by omega
      rw [if_neg hn, map_pure, hzero, List.take_zero, finish_replaceAll host repl]
    -- the rest of the loop, from a position behind this one
    have hrest : ∀ (s' n' : Nat) (ms : MatchState) (b' : List UInt8), s < s' → s' ≤ src.length →
        finished src <$> (if anchor = true then pure (some (b', s', n'))
            else gsubLoop host repl src max_s anchor p fuel n' ms s' b') =
          replaceAll host repl src b' s' n'
            ((matchesFrom anchor src p s').take (max_s - n').toNat) := by
      intro s' n' ms b' hlt hle
      cases anchor with
      | true =>
        rw [if_pos rfl, map_pure, matchesFrom_anchored (by omega), List.take_nil,
          finish_replaceAll host repl]
      | false => exact ih n' ms.capture (by omega) hle (fun h => by cases h)
    have hsearch : searchAt anchor src p s = matchAt src p s := by
      cases anchor with
      | true => rw [hanchor rfl]; rfl
      | false => rfl
    obtain ⟨ms, hmatch, hsame⟩ := do_match_matchAt h capture hs
    rw [if_pos hn]
    simp only [hmatch, raise, pure_bind]
    cases hfound : matchAt src p s with
    | none =>
      have hnone : ¬ (none : Option Nat).any (s < ·) = true := by simp
      have hnext : matchesFrom anchor src p s = matchesFrom anchor src p (s + 1) :=
        scan_next hs (hsearch.trans hfound)
      simp only [Option.map_none, if_neg hnone]
      by_cases hlt : s < src.length
      · have hskip := replaceAll_skip src host repl b n (Nat.le_succ s)
          (start_of_mem_take src p anchor (max_s - n).toNat)
        rw [if_pos hlt, hrest _ _ ms _ (Nat.lt_succ_self s) hlt, hnext, hskip, slice_succ hlt]
      · rw [if_neg hlt, map_pure, hnext, matchesFrom, scan_end (by omega), List.take_nil,
          finish_replaceAll host repl]
    | some r =>
      obtain ⟨e, slots⟩ := r
      have hbound := bounded_matchAt src p s e slots hs hfound
      have hempty : slice src s s = [] := by rw [slice, Nat.sub_self, List.take_zero]
      have hcons : matchesFrom anchor src p s =
          ⟨s, e, slots⟩ :: matchesFrom anchor src p (resume s e) :=
        scan_found hs (hsearch.trans hfound)
      simp only [Option.map_some, Option.any_some, Option.getD_some]
      rw [hcons, take_toNat_succ hn, List.take_succ_cons, replaceAll_cons, map_bind,
        add_value_congr host repl (hsame e slots hfound)]
      refine congrArg _ (funext fun piece => ?_)
      rw [hempty, List.append_nil]
      by_cases hlt : s < e
      · have hresume : resume s e = e := if_pos hlt
        rw [if_pos (decide_eq_true hlt), hresume, hrest _ _ ms _ hlt hbound.2]
      · obtain rfl : e = s := by omega
        have hresume : resume e e = e + 1 := if_neg (Nat.lt_irrefl e)
        rw [if_neg (by rw [decide_eq_true_eq]; exact hlt), hresume]
        by_cases hend : e < src.length
        · have hskip := replaceAll_skip src host repl (b ++ piece) (n + 1) (Nat.le_succ e)
            (start_of_mem_take src p anchor (max_s - (n + 1 : Nat)).toNat)
          rw [if_pos hend, hrest _ _ ms _ (Nat.lt_succ_self e) hend, hskip, slice_succ hend]
        · rw [if_neg hend, map_pure, matchesFrom, scan_end (by omega), List.take_nil,
            finish_replaceAll host repl]

/-- The pattern without the anchor. -/
def unanchored (p : List UInt8) : List UInt8 := if deref p == ch '^' then p.tail else p

/-- The matches that `gsub` replaces. -/
def gsubMatches (src p : List UInt8) (max_s : Option Int) : List (Found (List CaptureSlot)) :=
  (matchesFrom (deref p == ch '^') src (unanchored p) 0).take
    (wrap (max_s.getD (src.length + 1))).toNat

theorem str_gsub_eq (garbage : Nat → CaptureSlot) (h : NoErrors src (unanchored p))
    (max_s : Option Int) :
    str_gsub host garbage src p repl max_s =
      replaceAll host repl src [] 0 0 (gsubMatches src p max_s) := by
  have hfuel : src.length < (src.length + 2) + 0 := by omega
  have hloop : finished src <$> gsubLoop host repl src (wrap (max_s.getD (src.length + 1)))
      (deref p == ch '^') (unanchored p) (src.length + 2) 0 ⟨0, garbage⟩ 0 [] = _ :=
    gsubLoop_eq host repl h (src.length + 2) 0 garbage hfuel (Nat.zero_le _) fun _ => rfl
  rw [Int.natCast_zero, Int.sub_zero] at hloop
  rw [gsubMatches, ← hloop, str_gsub, map_eq_pure_bind]
  rfl

theorem bounded_matches {m : Found (List CaptureSlot)} {max_s : Option Int}
    (hm : m ∈ gsubMatches src p max_s) : m.start ≤ m.stop ∧ m.stop ≤ src.length ∧
      matchAt src (unanchored p) m.start = some (m.stop, m.what) := by
  obtain ⟨-, h1, h2, hfind⟩ := scan_sound (bounded_searchAt _ src _) 0 m (List.mem_of_mem_take hm)
  rw [searchAt] at hfind
  split_ifs at hfind
  exact ⟨h1, h2, hfind⟩

theorem pairwise_matches (src p : List UInt8) (max_s : Option Int) :
    (gsubMatches src p max_s).Pairwise Before :=
  (scan_pairwise (bounded_searchAt _ src _) 0).sublist (List.take_sublist _ _)

/-! ## Replacements that change nothing -/

/-- The subject, where every match is replaced by itself. -/
theorem replaced_original (src p : List UInt8) (max_s : Option Int) :
    replaced src 0 ((gsubMatches src p max_s).zip
      ((gsubMatches src p max_s).map fun m => slice src m.start m.stop)) = src := by
  have hmem : ∀ q ∈ (gsubMatches src p max_s).zip
      ((gsubMatches src p max_s).map fun m => slice src m.start m.stop),
      q.1 ∈ gsubMatches src p max_s ∧ q.2 = slice src q.1.start q.1.stop := by
    intro q hq
    rw [← List.map_prod_left_eq_zip, List.mem_map] at hq
    obtain ⟨m, hm, rfl⟩ := hq
    exact ⟨hm, rfl⟩
  refine (replaced_self (fun q _ => Nat.zero_le _) (fun q hq => ?_) ?_ fun q hq => ?_).trans
    List.drop_zero
  · exact (bounded_matches (hmem q hq).1).1
  · rw [List.map_fst_zip (by rw [List.length_map])]
    exact pairwise_matches src p max_s
  · exact (hmem q hq).2

/-- The string `%0`. -/
theorem add_value_whole (src : List UInt8) (ms : MatchState) (s e : Nat) :
    add_value host (.string (chars "%0")) src ms s e = pure (slice src s e) := by
  have hadd : add_s host src ms s e (chars "%0") = .ok (slice src s e ++ []) := rfl
  rw [add_value, hadd, List.append_nil]
  rfl

/-- A function or a table that returns nil or false, and may change the state. -/
def Falsy : Repl σ ε → Prop
  | .string _ => False
  | .function call => ∀ args st, ∃ v st', (call args).run st = (.ok v, st') ∧ v.l_isfalse = true
  | .table get => ∀ key st, ∃ v st', (get key).run st = (.ok v, st') ∧ v.l_isfalse = true

/-- The captures are finished. -/
def Finished (m : Found (List CaptureSlot)) : Prop := ∀ c ∈ m.what, c.len ≠ CAP_UNFINISHED

variable (src) in
theorem push_onecapture_ok {m : Found (List CaptureSlot)} (hm : Finished m) {i : Nat}
    (hi : i < max 1 m.what.length) (s e : Nat) :
    ∃ v, push_onecapture src (stateOf m.what) i s e = .ok v := by
  rw [push_onecapture]
  by_cases hlevel : i ≥ (stateOf m.what).level
  · have h0 : i = 0 := by
      have : i ≥ m.what.length := hlevel
      omega
    rw [if_pos hlevel, if_pos h0]
    exact ⟨_, rfl⟩
  · have hlt : i < m.what.length := Nat.lt_of_not_le hlevel
    have hlen : ((stateOf m.what).capture i).len ≠ CAP_UNFINISHED := by
      show (m.what.getD i ⟨0, 0⟩).len ≠ CAP_UNFINISHED
      rw [List.getD_eq_getElem?_getD, List.getElem?_eq_getElem hlt]
      exact hm _ (List.getElem_mem hlt)
    rw [if_neg hlevel]
    simp only [hlen, if_false]
    split_ifs
    · exact ⟨_, rfl⟩
    · exact ⟨_, rfl⟩

theorem mapM_ok {α β : Type} {f : α → Except String β} {l : List α}
    (h : ∀ a ∈ l, ∃ b, f a = .ok b) : ∃ bs, l.mapM f = .ok bs := by
  induction l with
  | nil => exact ⟨[], rfl⟩
  | cons a l ih =>
    obtain ⟨ha, hl⟩ := List.forall_mem_cons.mp h
    obtain ⟨b, hb⟩ := ha
    obtain ⟨bs, hbs⟩ := ih hl
    refine ⟨b :: bs, ?_⟩
    rw [List.mapM_cons, hb, ok_bind, hbs, ok_bind]
    rfl

variable (src) in
theorem push_captures_ok {m : Found (List CaptureSlot)} (hm : Finished m) (s : Option Nat) (e : Nat) :
    ∃ vs, push_captures src (stateOf m.what) s e = .ok vs := by
  refine mapM_ok fun i hi => push_onecapture_ok src hm ?_ _ _
  have hlt : i < if m.what.length = 0 ∧ s.isSome then 1 else m.what.length := List.mem_range.mp hi
  split_ifs at hlt <;> omega

theorem addResult_falsy {v : TValue} (hv : v.l_isfalse = true) (s e : Nat) :
    addResult host src s e v = pure (slice src s e) := if_pos hv

theorem add_value_falsy {repl : Repl σ ε} (hrepl : Falsy repl) {m : Found (List CaptureSlot)}
    (hm : Finished m) (s e : Nat) (st : σ) :
    ∃ st', (add_value host repl src (stateOf m.what) s e).run st = (.ok (slice src s e), st') := by
  cases repl with
  | string news => exact hrepl.elim
  | function call =>
    obtain ⟨vs, hvs⟩ := push_captures_ok src hm (some s) e
    obtain ⟨v, st', hcall, hv⟩ := hrepl vs st
    refine ⟨st', ?_⟩
    rw [add_value, hvs]
    show (call vs >>= fun v => addResult host src s e v).run st = _
    rw [run_bind_ok hcall, addResult_falsy host hv]
    rfl
  | table get =>
    obtain ⟨key, hkey⟩ := push_onecapture_ok src hm (i := 0) (by omega) s e
    obtain ⟨v, st', hget, hv⟩ := hrepl key st
    refine ⟨st', ?_⟩
    rw [add_value, hkey]
    show (get key >>= fun v => addResult host src s e v).run st = _
    rw [run_bind_ok hget, addResult_falsy host hv]
    rfl

theorem mapM_falsy {repl : Repl σ ε} (hrepl : Falsy repl) {found : List (Found (List CaptureSlot))}
    (hfound : ∀ m ∈ found, Finished m) (st : σ) :
    ∃ st', (found.mapM fun m => add_value host repl src (stateOf m.what) m.start m.stop).run st =
      (.ok (found.map fun m => slice src m.start m.stop), st') := by
  induction found generalizing st with
  | nil => exact ⟨st, rfl⟩
  | cons m found ih =>
    obtain ⟨hm, hfound⟩ := List.forall_mem_cons.mp hfound
    obtain ⟨st', hadd⟩ := add_value_falsy host hrepl hm m.start m.stop st
    obtain ⟨st'', hrest⟩ := ih hfound st'
    refine ⟨st'', ?_⟩
    rw [List.mapM_cons, run_bind_ok hadd, run_bind_ok hrest]
    rfl

end

/-- `gsub` replaces matches that come one after the other, at most as many as it was told to, and
nothing else; with themselves it leaves the subject. A function or a table gets the captures of a
match: it leaves the subject where these are finished. -/
theorem gsub_covers (src p : List UInt8) (max_s : Option Int) (h : NoErrors src (unanchored p)) :
    ∃ found : List (Found (List CaptureSlot)),
      found.Pairwise Before ∧
      (∀ m ∈ found, m.start ≤ m.stop ∧ m.stop ≤ src.length ∧
        matchAt src (unanchored p) m.start = some (m.stop, m.what)) ∧
      (found.length : Int) ≤ max 0 (wrap (max_s.getD (src.length + 1))) ∧
      (∀ (σ ε : Type) (host : Host σ ε) (garbage : Nat → CaptureSlot) (repl : Repl σ ε),
        str_gsub host garbage src p repl max_s = do
          let pieces ← found.mapM fun m => add_value host repl src (stateOf m.what) m.start m.stop
          pure (some (replaced src 0 (found.zip pieces), found.length))) ∧
      (∀ (σ ε : Type) (host : Host σ ε) (garbage : Nat → CaptureSlot),
        str_gsub host garbage src p (.string (chars "%0")) max_s =
          pure (some (src, found.length))) ∧
      ((∀ m ∈ found, Finished m) →
        ∀ (σ ε : Type) (host : Host σ ε) (garbage : Nat → CaptureSlot) (repl : Repl σ ε) (st : σ),
          Falsy repl → ∃ st', (str_gsub host garbage src p repl max_s).run st =
            (.ok (some (src, found.length)), st')) := by
  have horiginal := replaced_original src p max_s
  have heq : ∀ (σ ε : Type) (host : Host σ ε) (garbage : Nat → CaptureSlot) (repl : Repl σ ε),
      str_gsub host garbage src p repl max_s = (do
        let pieces ← (gsubMatches src p max_s).mapM fun m =>
          add_value host repl src (stateOf m.what) m.start m.stop
        pure (some (replaced src 0 ((gsubMatches src p max_s).zip pieces),
          (gsubMatches src p max_s).length))) := by
    intro σ ε host garbage repl
    rw [str_gsub_eq host repl garbage h, replaceAll]
    simp only [List.nil_append, Nat.zero_add]
  refine ⟨gsubMatches src p max_s, pairwise_matches src p max_s, fun m hm => bounded_matches hm, ?_,
    heq, fun σ ε host garbage => ?_, fun hfinished σ ε host garbage repl st hrepl => ?_⟩
  · have hle : (gsubMatches src p max_s).length ≤ (wrap (max_s.getD (src.length + 1))).toNat :=
      List.length_take_le ..
    omega
  · have hpieces : ∀ found : List (Found (List CaptureSlot)),
        (found.mapM fun m => add_value host (.string (chars "%0")) src (stateOf m.what) m.start
          m.stop) = pure (found.map fun m => slice src m.start m.stop) := by
      intro found
      simp only [add_value_whole]
      exact List.mapM_pure
    rw [heq, hpieces, pure_bind, horiginal]
  · obtain ⟨st', hrun⟩ := mapM_falsy host hrepl hfinished st
    refine ⟨st', ?_⟩
    rw [heq, run_bind_ok hrun, horiginal]
    rfl

theorem noErrors_letter : NoErrors (chars "ab") (unanchored (chars "a")) := by
  intro garbage s hs
  have hle : s ≤ 2 := hs
  obtain rfl | rfl | rfl : s = 0 ∨ s = 1 ∨ s = 2 := by omega
  · exact ⟨_, rfl⟩
  · exact ⟨_, rfl⟩
  · exact ⟨_, rfl⟩

theorem gsub_covers_letter :
    ∃ found : List (Found (List CaptureSlot)),
      found.Pairwise Before ∧
      (∀ m ∈ found, m.start ≤ m.stop ∧ m.stop ≤ (chars "ab").length ∧
        matchAt (chars "ab") (unanchored (chars "a")) m.start = some (m.stop, m.what)) ∧
      (found.length : Int) ≤ max 0 (wrap ((none : Option Int).getD ((chars "ab").length + 1))) ∧
      (∀ (σ ε : Type) (host : Host σ ε) (garbage : Nat → CaptureSlot) (repl : Repl σ ε),
        str_gsub host garbage (chars "ab") (chars "a") repl none = do
          let pieces ← found.mapM fun m =>
            add_value host repl (chars "ab") (stateOf m.what) m.start m.stop
          pure (some (replaced (chars "ab") 0 (found.zip pieces), found.length))) ∧
      (∀ (σ ε : Type) (host : Host σ ε) (garbage : Nat → CaptureSlot),
        str_gsub host garbage (chars "ab") (chars "a") (.string (chars "%0")) none =
          pure (some (chars "ab", found.length))) ∧
      ((∀ m ∈ found, Finished m) →
        ∀ (σ ε : Type) (host : Host σ ε) (garbage : Nat → CaptureSlot) (repl : Repl σ ε) (st : σ),
          Falsy repl → ∃ st', (str_gsub host garbage (chars "ab") (chars "a") repl none).run st =
            (.ok (some (chars "ab", found.length)), st')) :=
  gsub_covers (chars "ab") (chars "a") none noErrors_letter

theorem noErrors_unfinished : NoErrors (chars "a") (unanchored (chars "(a")) := by
  intro garbage s hs
  have hle : s ≤ 1 := hs
  obtain rfl | rfl : s = 0 ∨ s = 1 := by omega
  · exact ⟨_, rfl⟩
  · exact ⟨_, rfl⟩

/-- A pattern without the end of its capture, on which `match` raises no error, while a function
that returns nil is not called. -/
theorem unfinished_capture :
    NoErrors (chars "a") (unanchored (chars "(a")) ∧
      ∀ garbage : Nat → CaptureSlot,
        (str_gsub plainHost garbage (chars "a") (chars "(a") (.function fun _ => pure .nil) none).run
          () = (.error "unfinished capture", ()) := by
  refine ⟨noErrors_unfinished, fun garbage => ?_⟩
  have hfind : searchAt (deref (chars "(a") == ch '^') (chars "a") (unanchored (chars "(a")) 0 =
      some (1, [⟨0, CAP_UNFINISHED⟩]) := rfl
  have hlimit : (wrap ((none : Option Int).getD ((chars "a").length + 1))).toNat = 1 + 1 := by decide
  have hpiece : add_value plainHost (.function fun _ => pure .nil) (chars "a")
      (stateOf [⟨0, CAP_UNFINISHED⟩]) 0 1 = throw "unfinished capture" := rfl
  rw [str_gsub_eq plainHost _ garbage noErrors_unfinished, gsubMatches, matchesFrom,
    scan_found (Nat.zero_le _) hfind, hlimit, List.take_succ_cons, replaceAll_cons, hpiece]
  rfl

/-! ## `gmatch` -/

/-- What `gmatch_aux` returns for what was found. -/
def captured (src : List UInt8) (m : Found (List CaptureSlot)) : Except String Matched := do
  let captures ← push_captures src (stateOf m.what) (some m.start) m.stop
  pure ⟨m.start, m.stop, captures⟩

/-- The result of `gmatch_aux`, by what is found from its position on. -/
def firstOf (src : List UInt8) :
    List (Found (List CaptureSlot)) → Except String (Option (Number × Matched))
  | [] => pure none
  | m :: _ => do
    let c ← captured src m
    pure (some (cast_num (resume m.start m.stop : Nat), c))

theorem gmatchLoop_eq (h : NoErrors src p) {fuel level : Nat} {capture : Nat → CaptureSlot}
    (hfuel : src.length + 1 < fuel + s) (hle : s ≤ src.length + 1) :
    gmatchLoop src p fuel ⟨level, capture⟩ s = firstOf src (matchesFrom false src p s) := by
  induction fuel generalizing level capture s with
  | zero => omega
  | succ fuel ih =>
    rw [gmatchLoop]
    by_cases hs : s ≤ src.length
    swap
    · rw [if_neg hs, matchesFrom, scan_end (by omega)]
      rfl
    obtain ⟨ms, hmatch, hsame⟩ := do_match_matchAt h capture hs
    rw [if_pos hs]
    simp only [hmatch, ok_bind]
    cases hfound : matchAt src p s with
    | none =>
      have hnext : matchesFrom false src p s = matchesFrom false src p (s + 1) :=
        scan_next hs hfound
      rw [hnext]
      exact ih (by omega) (by omega)
    | some r =>
      obtain ⟨e, slots⟩ := r
      have hbound := bounded_matchAt src p s e slots hs hfound
      have hcons : matchesFrom false src p s = ⟨s, e, slots⟩ :: matchesFrom false src p (resume s e) :=
        scan_found hs hfound
      have hresume : (if e = s then e + 1 else e) = resume s e := by
        unfold resume
        split_ifs <;> omega
      rw [hcons, firstOf, captured]
      simp only [Option.map_some, hresume, push_captures_congr (hsame e slots hfound), bind_assoc,
        pure_bind]

/-- The calls of `gmatch_aux` from a position on. -/
theorem gmatchCalls_eq (hlen : src.length < 2 ^ 31 - 1) (h : NoErrors src p)
    (garbage : Nat → Nat → CaptureSlot) {fuel k : Nat} (hfuel : src.length + 1 < fuel + s)
    (hs : s ≤ src.length + 1) :
    gmatchCalls src p garbage fuel k (cast_num s) =
      (matchesFrom false src p s).mapM (captured src) := by
  induction fuel generalizing s k with
  | zero => omega
  | succ fuel ih =>
    have hposition : (lua_number2integer (cast_num s)).toNat = s := by
      rw [lua_number2integer_cast_num (by omega) (by omega), Int.toNat_natCast]
    rw [gmatchCalls, gmatch_aux, hposition, gmatchLoop_eq h (by omega) hs]
    cases hfound : matchesFrom false src p s with
    | nil => rfl
    | cons m found =>
      obtain ⟨hge, hle, hfind, rfl⟩ := scan_eq_cons s hfound
      have hbound := bounded_searchAt false src p _ _ _ hle hfind
      have hlt := lt_resume m.start m.stop
      have hresume : resume m.start m.stop ≤ src.length + 1 := by
        unfold resume
        split_ifs <;> omega
      rw [firstOf, List.mapM_cons]
      simp only [bind_assoc, pure_bind, ih (k := k + 1) (by omega) hresume]
      rfl

/-- `gmatch` comes to the matches that `gsub` replaces when no maximum is given, with the same
captures. -/
theorem gmatch_agrees (src p : List UInt8) (hlen : src.length < 2 ^ 31 - 1) (hp : deref p ≠ ch '^')
    (h : NoErrors src p) :
    ∃ found : List (Found (List CaptureSlot)),
      (∀ garbage : Nat → Nat → CaptureSlot, gmatch src p garbage = found.mapM (captured src)) ∧
      ∀ (σ ε : Type) (host : Host σ ε) (garbage : Nat → CaptureSlot) (repl : Repl σ ε),
        str_gsub host garbage src p repl none = (do
          let pieces ← found.mapM fun m => add_value host repl src (stateOf m.what) m.start m.stop
          pure (some (replaced src 0 (found.zip pieces), found.length))) := by
  have hanchor : (deref p == ch '^') = false := beq_eq_false_iff_ne.mpr hp
  have hpattern : unanchored p = p := by
    rw [unanchored, hanchor]
    rfl
  refine ⟨matchesFrom false src p 0, fun garbage => ?_, fun σ ε host garbage repl => ?_⟩
  · exact gmatchCalls_eq hlen h garbage (by omega) (Nat.zero_le _)
  · have hall : gsubMatches src p none = matchesFrom false src p 0 := by
      have hlimit : (wrap ((none : Option Int).getD (src.length + 1))).toNat = src.length + 1 := by
        rw [Option.getD_none, wrap_eq (by omega) (by omega)]
        omega
      rw [gsubMatches, hanchor, hpattern, hlimit]
      exact List.take_of_length_le (length_scan_le 0)
    rw [str_gsub_eq host repl garbage (by rwa [hpattern]), hall, replaceAll]
    simp only [List.nil_append, Nat.zero_add]

theorem gmatch_agrees_letter :
    ∃ found : List (Found (List CaptureSlot)),
      (∀ garbage : Nat → Nat → CaptureSlot,
        gmatch (chars "ab") (chars "a") garbage = found.mapM (captured (chars "ab"))) ∧
      ∀ (σ ε : Type) (host : Host σ ε) (garbage : Nat → CaptureSlot) (repl : Repl σ ε),
        str_gsub host garbage (chars "ab") (chars "a") repl none = (do
          let pieces ← found.mapM fun m =>
            add_value host repl (chars "ab") (stateOf m.what) m.start m.stop
          pure (some (replaced (chars "ab") 0 (found.zip pieces), found.length))) :=
  gmatch_agrees (chars "ab") (chars "a") (by decide) (by decide) noErrors_letter

end Luaxx.Pattern
