import Luaxx.Bstring.Failing

/-!
# Bstrings near the limits of `int`

What the functions that append do for any pattern of failed allocations: they fail and have written
nothing, or the bytes are behind those of the string, with room for the zero byte. Each is right
exactly as long as the new length and its zero byte are counted by an `int`.
-/

namespace Luaxx.Bstr.Failing

open Luaxx.Int32 Luaxx.Memory

variable {b b0 b1 : Bstring} {l l0 l1 : List UInt8} {results : List Bool}

/-- One of the allocations that `balloc` tries succeeds. -/
def granted (b : Bstring) (results : List Bool) : Bool :=
  if wrap (7 * b.mlen) < wrap (8 * b.slen) then results.headD true
  else results.headD true || results.tail.headD true

theorem writeAt_eq {x : Block} {i : Int} {n : Nat} (hi : i = n) (c : UInt8) :
    writeAt x i c = access (write x n c) := by
  rw [writeAt, hi, if_pos (Int.natCast_nonneg n), Int.toNat_natCast]

theorem alloc_run : alloc.run results = some (results.headD true, results.tail) := rfl

/-! ## When every allocation succeeds -/

theorem alloc_nil : alloc.run [] = some (true, []) := rfl

theorem access_nil {α β : Type} (x : Option α) (f : α → A β) :
    (access x >>= f).run [] = x.bind fun a => (f a).run [] := by
  cases x <;> rfl

theorem enlarged_nil (b : Bstring) (len : Int) :
    (enlarged b len).run [] = (moved b len).map fun x => (some x, []) := by
  rw [enlarged, moved]
  split
  · rfl
  · rw [run_bind alloc_nil, if_pos rfl, access_nil]
    cases copied b len <;> rfl

theorem balloc_nil (b : Bstring) (len : Int) :
    (balloc b len).run [] = (Bstr.balloc b len).map fun r => (r, []) := by
  rw [balloc, Bstr.balloc]
  split
  · rfl
  next hguard =>
  split
  · rfl
  dsimp only
  split
  · rfl
  cases hx : moved b (snapUpSize len) with
  | none => exact run_bind_none (by rw [enlarged_nil, hx]; rfl)
  | some x =>
    have hrun : (enlarged b (snapUpSize len)).run [] = some (some x, []) := by
      rw [enlarged_nil, hx]
      rfl
    rw [run_bind hrun]
    dsimp only
    rw [writeAt, if_pos (by omega), access_nil]
    show _ = Option.map _ (Option.bind (write x b.slen.toNat 0) _)
    cases write x b.slen.toNat 0 <;> rfl

theorem bstrcpy_nil (h : 0 ≤ b.slen) :
    (bstrcpy b).run [] = (Bstr.bstrcpy b).map fun b' => (some b', []) := by
  rw [bstrcpy, Bstr.bstrcpy, run_bind alloc_nil, if_pos rfl]
  cases hx : copied b (snapUpSize (wrap (b.slen + 1))) with
  | none =>
    refine run_bind_none ?_
    rw [copyBlock]
    dsimp only
    rw [run_bind alloc_nil, if_pos rfl, hx]
    rfl
  | some x =>
    have hrun : (copyBlock b).run [] = some (some (snapUpSize (wrap (b.slen + 1)), x), []) := by
      rw [copyBlock]
      dsimp only
      rw [run_bind alloc_nil, if_pos rfl, hx]
      rfl
    rw [run_bind hrun]
    dsimp only
    rw [writeAt, if_pos h, access_nil]
    show _ = Option.map _ (Option.bind (write x b.slen.toNat 0) _)
    cases write x b.slen.toNat 0 <;> rfl

theorem makeRoom_nil (h1 : 0 ≤ b1.slen) (aliased : Bool) :
    (makeRoom b0 b1 aliased).run [] =
      (Bstr.makeRoom b0 b1 aliased).map fun r => ((some r.1, r.2.1, r.2.2), []) := by
  rw [makeRoom, Bstr.makeRoom]
  dsimp only
  split
  · have hcopy : (if aliased then bstrcpy b1 else pure (some b1) : A _).run [] =
        (if aliased then Bstr.bstrcpy b1 else some b1).map fun aux => (some aux, []) := by
      cases aliased with
      | false => rfl
      | true => exact bstrcpy_nil h1
    cases haux : (if aliased then Bstr.bstrcpy b1 else some b1) with
    | none => exact run_bind_none (by rw [hcopy, haux]; rfl)
    | some aux =>
      rw [haux] at hcopy
      rw [run_bind hcopy]
      dsimp only
      rw [StateT.run_bind, balloc_nil]
      show _ = Option.map _ (Option.bind (Bstr.balloc b0 _) _)
      cases Bstr.balloc b0 (wrap (wrap (b0.slen + b1.slen) + 1)) <;> rfl
  · rfl

/-- Where the sum does not wrap around, this is `bconcat` without failures. -/
theorem bconcat_nil (h1 : 0 ≤ b1.slen) (hsum : 0 ≤ wrap (b0.slen + b1.slen)) (aliased : Bool) :
    (bconcat b0 b1 aliased).run [] = (Bstr.bconcat b0 b1 aliased).map fun r => (r, []) := by
  rw [bconcat, Bstr.bconcat]
  dsimp only
  split
  · rfl
  cases hroom : Bstr.makeRoom b0 b1 aliased with
  | none => exact run_bind_none (by rw [makeRoom_nil h1, hroom]; rfl)
  | some room =>
    obtain ⟨aux, code, b⟩ := room
    have hrun : (makeRoom b0 b1 aliased).run [] = some ((some aux, code, b), []) := by
      rw [makeRoom_nil h1, hroom]
      rfl
    rw [run_bind hrun]
    show StateT.run (if code ≠ BSTR_OK then _ else _) [] =
      Option.map _ (if code ≠ BSTR_OK then _ else _)
    split
    · rfl
    · rw [copyBehind, access_nil]
      cases hx : bBlockCopy b.data b0.slen aux.data b1.slen with
      | none => rfl
      | some x =>
        show (writeAt x (wrap (b0.slen + b1.slen)) 0 >>= _ : A _).run [] = _
        rw [writeAt, if_pos hsum, access_nil]
        show _ = Option.map _ (Option.bind (write x (wrap (b0.slen + b1.slen)).toNat 0) _)
        cases write x (wrap (b0.slen + b1.slen)).toNat 0 <;> rfl

/-! ## Allocation -/

theorem enlarged_run (h : Holds b l) {len : Int} (hlen : b.mlen ≤ len) :
    (granted b results = true ∧ ∃ x results', (enlarged b len).run results = some (some x, results') ∧
      x.length = len.toNat ∧ Starts x l) ∨
    (granted b results = false ∧ ∃ results', (enlarged b len).run results = some (none, results')) := by
  have hmlen := h.mlen
  have hle := h.starts.length_le
  have hgrow : b.data.length ≤ len.toNat := by omega
  have hkeep : Starts (realloc b.data len.toNat) l := h.starts.realloc hgrow
  rw [granted, enlarged]
  by_cases hclose : wrap (7 * b.mlen) < wrap (8 * b.slen)
  · rw [if_pos hclose, if_pos hclose, run_bind alloc_run]
    cases hfirst : results.headD true with
    | true => exact .inl ⟨rfl, _, _, rfl, length_realloc hgrow, hkeep⟩
    | false => exact .inr ⟨rfl, _, rfl⟩
  rw [if_neg hclose, if_neg hclose, run_bind alloc_run]
  cases hfirst : results.headD true with
  | true =>
    obtain ⟨x, hx, hxlen, hstarts⟩ := @copied_spec b l h.slen h.starts len (by omega)
    refine .inl ⟨rfl, x, results.tail, ?_, hxlen, hstarts⟩
    rw [if_pos rfl, hx]
    rfl
  | false =>
    rw [if_neg Bool.false_ne_true, run_bind alloc_run]
    cases hsecond : results.tail.headD true with
    | true => exact .inl ⟨rfl, _, _, rfl, length_realloc hgrow, hkeep⟩
    | false => exact .inr ⟨rfl, _, rfl⟩

/-- The block is large enough, or there is memory for a larger one. -/
def Room (b : Bstring) (len : Int) (results : List Bool) : Prop :=
  len < b.mlen ∨ snapUpSize len ≤ b.mlen ∨ granted b results = true

/-- The block is made as large as is asked for, or there is no memory for it. -/
theorem balloc_run (h : Holds b l) {len : Int} (hpos : 0 < len) (hlt : len < 2 ^ 31) :
    (Room b len results ∧ ∃ b' results', (balloc b len).run results = some ((BSTR_OK, b'), results') ∧
      Holds b' l ∧ len ≤ b'.mlen) ∨
    (granted b results = false ∧
      ∃ results', (balloc b len).run results = some ((BSTR_ERR, b), results')) := by
  have hslen := h.slen
  have hmlen := h.mlen
  have hdata := h.pos
  have hle := h.starts.length_le
  have hguard : ¬ (b.slen < 0 ∨ b.mlen ≤ 0 ∨ b.mlen < b.slen ∨ len ≤ 0) := by omega
  obtain ⟨hsnap, -⟩ := le_snapUpSize len
  have hsmall := snapUpSize_lt hlt
  rw [balloc, if_neg hguard]
  by_cases hroom : len < b.mlen
  · rw [if_pos hroom]
    exact .inl ⟨.inl hroom, b, results, rfl, h, Int.le_of_lt hroom⟩
  rw [if_neg hroom]
  dsimp only
  by_cases hfit : snapUpSize len ≤ b.mlen
  · rw [if_pos hfit]
    exact .inl ⟨.inr (.inl hfit), b, results, rfl, h, by omega⟩
  rw [if_neg hfit]
  rcases @enlarged_run b l results h (snapUpSize len) (by omega) with
    ⟨hgranted, x, results', hrun, hxlen, hxstarts⟩ | ⟨hdenied, results', hrun⟩
  · obtain ⟨y, hy, hylen, hystarts⟩ := terminated hxstarts (by omega)
    refine .inl ⟨.inr (.inr hgranted), { b with data := y, mlen := snapUpSize len }, results', ?_,
      ⟨hslen, ?_, ?_, ?_, hystarts.of_append⟩, hsnap⟩
    · rw [run_bind hrun]
      dsimp only
      rw [writeAt_eq hslen, hy]
      rfl
    · show snapUpSize len = y.length
      omega
    · show 0 < y.length
      omega
    · show y.length < 2 ^ 31
      omega
  · exact .inr ⟨hdenied, results', by rw [run_bind hrun]; rfl⟩

theorem copyBlock_run (hslen : b.slen = l.length) (hlt : l.length + 1 < 2 ^ 31)
    (h : Starts b.data l) :
    ∃ copy results', (copyBlock b).run results = some (copy, results') ∧
      ∀ j x, copy = some (j, x) → l.length < x.length ∧ Starts x l := by
  have hwrap : wrap (b.slen + 1) = l.length + 1 := by
    rw [hslen]
    exact wrap_eq (by omega) (by omega)
  obtain ⟨hsnap, -⟩ := le_snapUpSize (l.length + 1)
  rw [copyBlock, hwrap]
  dsimp only
  rw [run_bind alloc_run]
  cases results.headD true with
  | true =>
    obtain ⟨x, hx, hxlen, hstarts⟩ := @copied_spec b l hslen h (snapUpSize (l.length + 1)) (by omega)
    refine ⟨some (snapUpSize (l.length + 1), x), results.tail, by rw [if_pos rfl, hx]; rfl, ?_⟩
    rintro _ _ ⟨⟩
    exact ⟨by omega, hstarts⟩
  | false =>
    rw [if_neg Bool.false_ne_true, run_bind alloc_run]
    cases results.tail.headD true with
    | true =>
      obtain ⟨x, hx, hxlen, hstarts⟩ := @copied_spec b l hslen h (l.length + 1) (by omega)
      refine ⟨some (l.length + 1, x), results.tail.tail, by rw [if_pos rfl, hx]; rfl, ?_⟩
      rintro _ _ ⟨⟩
      exact ⟨by omega, hstarts⟩
    | false =>
      refine ⟨none, results.tail.tail, rfl, ?_⟩
      rintro _ _ ⟨⟩

theorem bstrcpy_run (hslen : b.slen = l.length) (hlt : l.length + 1 < 2 ^ 31)
    (h : Starts b.data l) :
    ∃ copy results', (bstrcpy b).run results = some (copy, results') ∧
      ∀ b', copy = some b' → Starts b'.data l := by
  rw [bstrcpy, run_bind alloc_run]
  cases results.headD true with
  | false =>
    refine ⟨none, results.tail, rfl, ?_⟩
    rintro _ ⟨⟩
  | true =>
    obtain ⟨copy, results', hrun, hcopy⟩ := @copyBlock_run b l results.tail hslen hlt h
    rw [if_pos rfl, run_bind hrun]
    cases copy with
    | none =>
      refine ⟨none, results', rfl, ?_⟩
      rintro _ ⟨⟩
    | some copy =>
      obtain ⟨j, x⟩ := copy
      obtain ⟨hxlen, hxstarts⟩ := hcopy j x rfl
      obtain ⟨y, hy, -, hystarts⟩ := terminated hxstarts hxlen
      refine ⟨some ⟨j, b.slen, y⟩, results', ?_, ?_⟩
      · dsimp only
        rw [writeAt_eq hslen, hy]
        rfl
      · rintro _ ⟨⟩
        exact hystarts.of_append

/-! ## `bconcat` -/

/-- There is room, or there is no memory for it. -/
theorem makeRoom_run (h0 : Holds b0 l0) (hslen1 : b1.slen = l1.length) (h1 : Starts b1.data l1)
    (hlt : l0.length + l1.length + 1 < 2 ^ 31) (aliased : Bool) :
    (∃ aux b results', (makeRoom b0 b1 aliased).run results =
        some ((some aux, BSTR_OK, b), results') ∧
      Holds b l0 ∧ Starts aux.data l1 ∧ l0.length + l1.length < b.data.length ∧
      (aliased = false → Room b0 (l0.length + l1.length + 1) results)) ∨
    (∃ aux code results', (makeRoom b0 b1 aliased).run results = some ((aux, code, b0), results') ∧
      (aux = none ∨ code ≠ BSTR_OK) ∧ (aliased = false → granted b0 results = false)) := by
  have hmlen := h0.mlen
  have hsum : wrap (b0.slen + b1.slen) = l0.length + l1.length := by
    rw [h0.slen, hslen1]
    exact wrap_eq (by omega) (by omega)
  have hsucc : wrap (l0.length + l1.length + 1 : Int) = l0.length + l1.length + 1 :=
    wrap_eq (by omega) (by omega)
  rw [makeRoom, hsum, hsucc]
  dsimp only
  by_cases hroom : b0.mlen ≤ l0.length + l1.length + 1
  · rw [if_pos hroom]
    have hcopied : ∃ copy results', (if aliased then bstrcpy b1 else pure (some b1) : A _).run
          results = some (copy, results') ∧
        (∀ aux, copy = some aux → Starts aux.data l1) ∧
        (aliased = false → results' = results ∧ copy = some b1) := by
      cases aliased with
      | false => exact ⟨some b1, results, rfl, by rintro _ ⟨⟩; exact h1, fun _ => ⟨rfl, rfl⟩⟩
      | true =>
        obtain ⟨copy, results', hrun, hcopy⟩ := @bstrcpy_run b1 l1 results hslen1 (by omega) h1
        exact ⟨copy, results', hrun, hcopy, by rintro ⟨⟩⟩
    obtain ⟨copy, results', hrun, hcopy, hsame⟩ := hcopied
    rw [run_bind hrun]
    cases copy with
    | none =>
      refine .inr ⟨none, BSTR_ERR, results', rfl, .inl rfl, fun hal => ?_⟩
      cases (hsame hal).2
    | some aux =>
      dsimp only
      rcases @balloc_run b0 l0 results' h0 (l0.length + l1.length + 1) (by omega) (by omega) with
        ⟨hgrown, b, results'', hballoc, hb, hcap⟩ | ⟨hdenied, results'', hballoc⟩
      · rw [run_bind hballoc]
        refine .inl ⟨aux, b, results'', rfl, hb, hcopy aux rfl, ?_, fun hal => ?_⟩
        · rw [hb.mlen] at hcap
          omega
        · rw [← (hsame hal).1]
          exact hgrown
      · rw [run_bind hballoc]
        refine .inr ⟨some aux, BSTR_ERR, results'', rfl, .inr (by decide), fun hal => ?_⟩
        rw [← (hsame hal).1]
        exact hdenied
  · rw [if_neg hroom]
    exact .inl ⟨b1, b0, results, rfl, h0, h1, by omega, fun _ => .inl (by omega)⟩

theorem copyBehind_run (hb : Holds b l0) {aux : Bstring} (haux : Starts aux.data l1)
    (hcap : l0.length + l1.length < b.data.length) :
    ∃ b', (copyBehind b l0.length aux l1.length).run results = some ((BSTR_OK, b'), results) ∧
      Represents b' (l0 ++ l1) := by
  have hsmall := hb.small
  have hlength : (l0 ++ l1).length = l0.length + l1.length := List.length_append
  have hsum : wrap ((l0.length : Int) + l1.length) = (l0 ++ l1).length := by
    rw [hlength, Int.natCast_add]
    exact wrap_eq (by omega) (by omega)
  obtain ⟨x, hx, hxlen, hxstarts⟩ := bBlockCopy_spec hb.starts haux (Nat.le_of_lt hcap)
  obtain ⟨y, hy, hylen, hystarts⟩ := terminated hxstarts (by omega)
  refine ⟨{ b with data := y, slen := (l0 ++ l1).length }, ?_, ⟨rfl, ?_, ?_, hystarts⟩⟩
  · rw [copyBehind, hx, hb.slen, hsum, run_bind (access_run (some x)), writeAt_eq rfl, hy]
    rfl
  · show b.mlen = y.length
    rw [hb.mlen, hylen, hxlen]
  · show y.length < 2 ^ 31
    rw [hylen, hxlen]
    exact hsmall

/-- Below the limit the bytes of `b1` are appended, or there is no memory for them. -/
theorem bconcat_run (h0 : Holds b0 l0) (hslen1 : b1.slen = l1.length) (h1 : Starts b1.data l1)
    (hlt : l0.length + l1.length + 1 < 2 ^ 31) (aliased : Bool) :
    (∃ b results', (bconcat b0 b1 aliased).run results = some ((BSTR_OK, b), results') ∧
      Represents b (l0 ++ l1) ∧ (aliased = false → Room b0 (l0.length + l1.length + 1) results)) ∨
    (∃ results', (bconcat b0 b1 aliased).run results = some ((BSTR_ERR, b0), results') ∧
      (aliased = false → granted b0 results = false)) := by
  have hslen := h0.slen
  have hmlen := h0.mlen
  have hsmall := h0.small
  have hle := h0.starts.length_le
  have hsub : wrap (b0.mlen - b0.slen) = b0.mlen - b0.slen := wrap_eq (by omega) (by omega)
  have hguard : ¬ (b0.slen < 0 ∨ wrap (b0.mlen - b0.slen) < 0 ∨ b1.slen < 0) := by omega
  rw [bconcat, if_neg hguard]
  rcases @makeRoom_run b0 b1 l0 l1 results h0 hslen1 h1 hlt aliased with
    ⟨aux, b, results', hrun, hb, haux, hcap, hroom⟩ | ⟨aux, code, results', hrun, hno, hdenied⟩
  · obtain ⟨b', hcopy, hrep⟩ := @copyBehind_run b l0 l1 results' hb aux haux hcap
    refine .inl ⟨b', results', ?_, hrep, hroom⟩
    rw [run_bind hrun, hslen, hslen1]
    exact hcopy
  · refine .inr ⟨results', ?_, hdenied⟩
    rw [run_bind hrun]
    cases aux with
    | none => rfl
    | some aux =>
      have hcode : code ≠ BSTR_OK := hno.resolve_left (by rintro ⟨⟩)
      dsimp only
      rw [if_pos hcode]
      rfl

/-- Beyond it no room is made, and the characters are copied behind the block. -/
theorem bconcat_overflow (hslen : 0 ≤ b0.slen) (hle : b0.slen ≤ b0.mlen)
    (hmlen : b0.mlen = b0.data.length) (hsmall : b0.data.length < 2 ^ 31) (hslen1 : 0 ≤ b1.slen)
    (hlt1 : b1.slen < 2 ^ 31) (hlimit : 2 ^ 31 ≤ b0.slen + b1.slen + 1) (aliased : Bool) :
    (bconcat b0 b1 aliased).run results = none := by
  have hsub : wrap (b0.mlen - b0.slen) = b0.mlen - b0.slen := wrap_eq (by omega) (by omega)
  have hguard : ¬ (b0.slen < 0 ∨ wrap (b0.mlen - b0.slen) < 0 ∨ b1.slen < 0) := by omega
  have hnegative : wrap (wrap (b0.slen + b1.slen) + 1) < 0 := by
    unfold wrap
    omega
  have hnoroom : (makeRoom b0 b1 aliased).run results = some ((some b1, BSTR_OK, b0), results) := by
    rw [makeRoom]
    dsimp only
    rw [if_neg (by omega)]
    rfl
  rw [bconcat, if_neg hguard]
  dsimp only
  rw [run_bind hnoroom]
  show (copyBehind b0 b0.slen b1 b1.slen).run results = none
  rw [copyBehind]
  by_cases hmove : bBlockCopy b0.data b0.slen b1.data b1.slen = none
  · exact run_bind_none (by rw [hmove]; rfl)
  obtain ⟨x, hx⟩ := Option.ne_none_iff_exists'.1 hmove
  -- only a copy that ends with the block is within it, and the zero byte is then behind it
  have hends : b0.slen + b1.slen ≤ b0.data.length ∧ x.length = b0.data.length := by
    rw [bBlockCopy] at hx
    split at hx
    · rw [move] at hx
      split at hx
      · next hbounds =>
        cases hx
        refine ⟨by omega, ?_⟩
        rw [List.length_append, List.length_append, List.length_take, List.length_take,
          List.length_drop]
        omega
      · cases hx
    · cases hx
      exact ⟨by omega, rfl⟩
  have hlast : wrap (b0.slen + b1.slen) = x.length := by
    rw [wrap_eq (by omega) (by omega)]
    omega
  rw [hx, run_bind (access_run (some x)), writeAt_eq hlast, write, if_neg (Nat.lt_irrefl _)]
  rfl

/-! ## The other functions -/

theorem bconchar_run (h : Represents b l) (c : UInt8) :
    (∃ b' results', (bconchar b c).run results = some ((BSTR_OK, b'), results') ∧
      Represents b' (l ++ [c])) ∨
    ∃ results', (bconchar b c).run results = some ((BSTR_ERR, b), results') := by
  have hslen := h.slen
  have hmlen := h.mlen
  have hsmall := h.small
  have hlength := h.length_lt
  have hsub : wrap (b.mlen - b.slen) = b.mlen - b.slen := wrap_eq (by omega) (by omega)
  have hguard : ¬ (b.slen < 0 ∨ wrap (b.mlen - b.slen) < 0) := by omega
  have hone : wrap (b.slen + 1) = (l ++ [c]).length := by
    rw [hslen, List.length_append, List.length_singleton]
    exact wrap_eq (by omega) (by omega)
  rw [bconchar, if_neg hguard]
  dsimp only
  by_cases hlimit : l.length + 2 < 2 ^ 31
  · have htwo : wrap (b.slen + 2) = l.length + 2 := by
      rw [hslen]
      exact wrap_eq (by omega) (by omega)
    rw [htwo]
    rcases @balloc_run b l results h.holds (l.length + 2) (by omega) (by omega) with
      ⟨-, b', results', hballoc, hb, hcap⟩ | ⟨-, results', hballoc⟩
    · have hmlen' := hb.mlen
      obtain ⟨x, hx, hxlen, hxstarts⟩ := hb.starts.write (Nat.le_refl l.length) (by omega) c
      rw [List.take_length] at hxstarts
      have hsucc : (l ++ [c]).length = l.length + 1 := List.length_append
      obtain ⟨y, hy, hylen, hystarts⟩ := terminated hxstarts (by omega)
      refine .inl ⟨{ b' with data := y, slen := (l ++ [c]).length }, results', ?_,
        ⟨rfl, ?_, ?_, hystarts⟩⟩
      · have hnew : wrap (b'.slen + 1) = (l ++ [c]).length := by rw [hb.slen, ← hslen, hone]
        rw [run_bind hballoc, hnew, hone]
        dsimp only
        rw [if_neg (fun hne => hne rfl), writeAt_eq hslen, hx, run_bind (access_run (some x)),
          writeAt_eq rfl, hy]
        rfl
      · show b'.mlen = y.length
        omega
      · show y.length < 2 ^ 31
        rw [hylen, hxlen]
        exact hb.small
    · refine .inr ⟨results', ?_⟩
      rw [run_bind hballoc]
      rfl
  · -- the sum has wrapped around, and `balloc` refuses it
    have hnegative : wrap (b.slen + 2) ≤ 0 := by
      unfold wrap
      omega
    have hrefused : (balloc b (wrap (b.slen + 2))).run results = some ((BSTR_ERR, b), results) := by
      rw [balloc, if_pos (.inr (.inr (.inr hnegative)))]
      rfl
    refine .inr ⟨results, ?_⟩
    rw [run_bind hrefused]
    rfl

/-- The length that is found for the characters that do not fit in the block. -/
def tailLength (b : Bstring) (s : CString) : Int := wrap (b.slen + s.val.length - b.mlen)

/-- Whether there is memory for a larger block, for a string that fills its own. -/
def grantedFull (b : Bstring) (results : List Bool) : Bool :=
  granted { b with slen := b.mlen } results

theorem bcatcstr_fits (h : Represents b l) (s : CString) (hfits : l.length + s.val.length < b.mlen) :
    ∃ b', (bcatcstr b s).run results = some ((BSTR_OK, b'), results) ∧
      Represents b' (l ++ s.val) := by
  have hslen := h.slen
  have hmlen := h.mlen
  have hsmall := h.small
  have hlength := h.length_lt
  have hsub : wrap (b.mlen - b.slen) = (b.data.length - l.length : Nat) := by
    rw [wrap_eq (by omega) (by omega)]
    omega
  have hguard : ¬ (b.slen < 0 ∨ b.mlen < b.slen ∨ b.mlen ≤ 0) := by omega
  have htoNat : b.slen.toNat = l.length := by omega
  obtain ⟨x, hxlen, hcases⟩ :=
    catLoop_spec s.val h.holds.starts (Nat.add_sub_of_le (Nat.le_of_lt hlength))
  obtain ⟨-, hrun, hstarts⟩ := hcases.resolve_right (by omega)
  have hnew : wrap (b.slen + s.val.length) = (l ++ s.val).length := by
    rw [hslen, List.length_append, Int.natCast_add]
    exact wrap_eq (by omega) (by omega)
  refine ⟨{ b with data := x, slen := (l ++ s.val).length }, ?_, ⟨rfl, ?_, ?_, hstarts⟩⟩
  · rw [bcatcstr, if_neg hguard, hsub, htoNat, ← hnew]
    dsimp only
    rw [Int.toNat_natCast, hrun]
    rfl
  · show b.mlen = x.length
    omega
  · show x.length < 2 ^ 31
    omega

/-- What does not fit is appended to a block that has been filled. -/
theorem bcatcstr_fills (h : Represents b l) (s : CString)
    (hfull : b.mlen ≤ l.length + s.val.length) :
    ∃ filled, Holds filled (l ++ s.val.take (b.data.length - l.length)) ∧ filled.slen = b.mlen ∧
      filled.mlen = b.mlen ∧ (bcatcstr b s).run results =
        (bconcat filled ⟨-1, tailLength b s, withNul (s.val.drop (b.data.length - l.length))⟩
          false).run results := by
  have hslen := h.slen
  have hmlen := h.mlen
  have hsmall := h.small
  have hlength := h.length_lt
  have hsub : wrap (b.mlen - b.slen) = (b.data.length - l.length : Nat) := by
    rw [wrap_eq (by omega) (by omega)]
    omega
  have hguard : ¬ (b.slen < 0 ∨ b.mlen < b.slen ∨ b.mlen ≤ 0) := by omega
  have htoNat : b.slen.toNat = l.length := by omega
  obtain ⟨x, hxlen, hcases⟩ :=
    catLoop_spec s.val h.holds.starts (Nat.add_sub_of_le (Nat.le_of_lt hlength))
  obtain ⟨hle, hrun, hstarts⟩ := hcases.resolve_left (by omega)
  have htail : tailLength b s = wrap (s.val.drop (b.data.length - l.length)).length := by
    rw [tailLength, List.length_drop]
    congr 1
    omega
  rw [htail]
  generalize hn : b.data.length - l.length = n at hle hrun hstarts hsub
  have hnew : wrap (b.slen + n) = b.mlen := by
    rw [wrap_eq (by omega) (by omega)]
    omega
  have htake : (l ++ s.val.take n).length = l.length + n := by
    rw [List.length_append, List.length_take_of_le hle]
  refine ⟨{ b with data := x, slen := b.mlen }, ⟨?_, ?_, ?_, ?_, hstarts⟩, rfl, rfl, ?_⟩
  · show b.mlen = _
    omega
  · show b.mlen = x.length
    omega
  · show 0 < x.length
    omega
  · show x.length < 2 ^ 31
    omega
  · rw [bcatcstr, if_neg hguard, hsub, htoNat]
    dsimp only
    rw [Int.toNat_natCast, hrun]
    show (bconcat { b with data := x, slen := wrap (b.slen + n) } _ _).run results = _
    rw [hnew]

/-- It fails with the block filled, or copies behind a block, or appends as many characters as have
been counted. -/
theorem bcatcstr_full (h : Represents b l) (s : CString)
    (hfull : b.mlen ≤ l.length + s.val.length) :
    ((tailLength b s < 0 ∨ b.mlen + tailLength b s + 1 < 2 ^ 31 ∧ grantedFull b results = false) ∧
      ∃ b' results', (bcatcstr b s).run results = some ((BSTR_ERR, b'), results') ∧
        b'.slen = b.mlen) ∨
    (0 ≤ tailLength b s ∧ 2 ^ 31 ≤ b.mlen + tailLength b s + 1 ∧
      (bcatcstr b s).run results = none) ∨
    (0 ≤ tailLength b s ∧ b.mlen + tailLength b s + 1 < 2 ^ 31 ∧ grantedFull b results = true ∧
      ∃ b' results', (bcatcstr b s).run results = some ((BSTR_OK, b'), results') ∧
        Represents b' (l ++ s.val.take (b.mlen - l.length + tailLength b s).toNat)) := by
  obtain ⟨filled, hfilled, hslen, hmlen, hrun⟩ := @bcatcstr_fills b l results h s hfull
  have hb := h.mlen
  have hslen0 := h.slen
  have hsmall := h.small
  have hlength := h.length_lt
  have hsame : granted filled results = grantedFull b results := by
    rw [grantedFull, granted, granted, hslen, hmlen]
  rw [hrun]
  by_cases hnegative : tailLength b s < 0
  · refine .inl ⟨.inl hnegative, filled, results, ?_, hslen⟩
    rw [bconcat, if_pos (.inr (.inr hnegative))]
    rfl
  have hpos : 0 ≤ tailLength b s := Int.not_lt.1 hnegative
  by_cases hlimit : b.mlen + tailLength b s + 1 < 2 ^ 31
  · have hfill : (l ++ s.val.take (b.data.length - l.length)).length = b.data.length := by
      rw [List.length_append, List.length_take_of_le (by omega)]
      omega
    generalize hrest : s.val.drop (b.data.length - l.length) = rest
    have hcount : tailLength b s ≤ rest.length := by
      rw [← hrest, List.length_drop]
      rw [tailLength, wrap] at hpos ⊢
      omega
    have htake : (rest.take (tailLength b s).toNat).length = tailLength b s := by
      rw [List.length_take_of_le (by omega)]
      omega
    have hsrc : Starts (withNul rest) rest := (starts_map _).of_append
    rcases @bconcat_run filled ⟨-1, tailLength b s, withNul rest⟩ _ _ results hfilled htake.symm
      (hsrc.take _) (by omega) false with ⟨b', results', hconcat, hrep, hroom⟩ |
        ⟨results', hconcat, hdenied⟩
    · refine .inr (.inr ⟨hpos, hlimit, ?_, b', results', hconcat, ?_⟩)
      · rw [← hsame]
        have hgrown := le_snapUpSize (b.mlen + tailLength b s + 1)
        have hroom := hroom rfl
        rw [hfill, htake, ← hb, Room, hmlen] at hroom
        rcases hroom with hroom | hroom | hroom
        · omega
        · omega
        · exact hroom
      · have hsplit : (b.mlen - l.length + tailLength b s).toNat =
            b.data.length - l.length + (tailLength b s).toNat := by omega
        rw [← hrest, List.append_assoc, ← List.take_add, ← hsplit] at hrep
        exact hrep
    · rw [hsame] at hdenied
      exact .inl ⟨.inr ⟨hlimit, hdenied rfl⟩, filled, results', hconcat, hslen⟩
  · refine .inr (.inl ⟨hpos, Int.not_lt.1 hlimit, bconcat_overflow ?_ ?_ hfilled.mlen hfilled.small
      hpos (wrap_lt _) ?_ false⟩)
    · omega
    · omega
    · show 2 ^ 31 ≤ filled.slen + tailLength b s + 1
      omega

theorem bcatblk_fails (h : Represents b l) (s : List UInt8) {len : Int} (hlt : len < 2 ^ 31)
    (hlimit : len < 0 ∨ 2 ^ 31 ≤ l.length + len) :
    (bcatblk b s len).run results = some ((BSTR_ERR, b), results) := by
  have hslen := h.slen
  have hmlen := h.mlen
  have hsmall := h.small
  have hlength := h.length_lt
  rw [bcatblk]
  by_cases hnegative : len < 0
  · rw [if_pos (.inr (.inr (.inr hnegative)))]
    rfl
  have hoverflow : wrap (b.slen + len) < 0 := by
    unfold wrap
    omega
  rw [if_neg (by omega)]
  dsimp only
  rw [if_pos hoverflow]
  rfl

theorem bcatblk_run (h : Represents b l) (s : List UInt8) {len : Int} (hpos : 0 ≤ len)
    (hlen : len ≤ s.length) (hlt : l.length + len + 1 < 2 ^ 31) :
    (∃ b' results', (bcatblk b s len).run results = some ((BSTR_OK, b'), results') ∧
      Represents b' (l ++ s.take len.toNat)) ∨
    ∃ results', (bcatblk b s len).run results = some ((BSTR_ERR, b), results') := by
  obtain ⟨n, rfl⟩ := Int.eq_ofNat_of_zero_le hpos
  have hslen := h.slen
  have hmlen := h.mlen
  have hsmall := h.small
  have hlength := h.length_lt
  have hguard : ¬ (b.slen < 0 ∨ b.mlen < b.slen ∨ b.mlen ≤ 0 ∨ (n : Int) < 0) := by omega
  have htake : (s.take n).length = n := List.length_take_of_le (by omega)
  have hsum : (l ++ s.take n).length = l.length + n := by rw [List.length_append, htake]
  have hnl : wrap (b.slen + n) = (l ++ s.take n).length := by
    rw [hslen, hsum, Int.natCast_add]
    exact wrap_eq (by omega) (by omega)
  have hsrc : Starts (s.map some) (s.take n) := (starts_map s).take n
  rw [bcatblk, if_neg hguard, hnl, Int.toNat_natCast]
  dsimp only
  rw [if_neg (by omega)]
  split
  · next hroom =>
    obtain ⟨x, hx, hxlen, hxstarts⟩ := bBlockCopy_spec h.holds.starts hsrc (by omega)
    obtain ⟨y, hy, hylen, hystarts⟩ := terminated hxstarts (by omega)
    rw [htake, ← hslen] at hx
    refine .inl ⟨{ b with data := y, slen := (l ++ s.take n).length }, results, ?_,
      ⟨rfl, ?_, ?_, hystarts⟩⟩
    · rw [hx, run_bind (access_run (some x)), writeAt_eq rfl, hy]
      rfl
    · show b.mlen = y.length
      omega
    · show y.length < 2 ^ 31
      omega
  · have hcount : (n : Int) = (s.take n).length := by rw [htake]
    rcases @bconcat_run b ⟨-1, n, s.map some⟩ l _ results h.holds hcount hsrc (by omega) false with
      ⟨b', results', hconcat, hrep, -⟩ | ⟨results', hconcat, -⟩
    · exact .inl ⟨b', results', hconcat, hrep⟩
    · exact .inr ⟨results', hconcat⟩

theorem bcatblk_overflow (h : Represents b l) (s : List UInt8) {len : Int}
    (hpos : 0 ≤ len) (hlt : len < 2 ^ 31) (hlimit : l.length + len = 2 ^ 31 - 1) :
    (bcatblk b s len).run results = none := by
  have hslen := h.slen
  have hmlen := h.mlen
  have hsmall := h.small
  have hlength := h.length_lt
  have hnl : wrap (b.slen + len) = 2 ^ 31 - 1 := by
    rw [hslen, hlimit]
    exact wrap_eq (by omega) (by omega)
  rw [bcatblk, if_neg (by omega), hnl]
  dsimp only
  rw [if_neg (by omega), if_neg (by omega)]
  exact bconcat_overflow (by omega) (by omega) hmlen hsmall hpos hlt (by
    show 2 ^ 31 ≤ b.slen + len + 1
    omega) false

/-! ## New strings -/

/-- Both allocations of a new string succeed. -/
def grantedNew (results : List Bool) : Bool := results.headD true && results.tail.headD true

/-- The length is computed without overflow, or the result is 2^31, which is no `int`. -/
theorem roomFor_cases (j : Nat) :
    (j % 2 ^ 32 = 2 ^ 31 - 1 ∧ roomFor j ≤ wrap j) ∨
    (j % 2 ^ 32 ≠ 2 ^ 31 - 1 ∧ wrap j < roomFor j ∧ roomFor j < 2 ^ 31 ∧
      (j < 2 ^ 31 → j < roomFor j)) := by
  have hroom : roomFor j < 2 ^ 31 := snapUpSize_lt (wrap_lt _)
  by_cases hzero : j = 0
  · rw [hzero] at hroom ⊢
    exact .inr ⟨by decide, by decide, hroom, fun _ => by decide⟩
  have hsum : ((j + (2 - if j ≠ 0 then 1 else 0) : Nat) : Int) = j + 1 := by
    rw [if_pos hzero, Int.natCast_add]
    rfl
  by_cases hlimit : j % 2 ^ 32 = 2 ^ 31 - 1
  · have hwrap : wrap (j + 1) = -2 ^ 31 := by
      unfold wrap
      omega
    have hsmall : snapUpSize (wrap (j + 1)) = 8 := by
      rw [hwrap]
      decide
    have hj : wrap j = 2 ^ 31 - 1 := by
      unfold wrap
      omega
    exact .inl ⟨hlimit, by rw [roomFor, hsum, hsmall, hj]; decide⟩
  · have hwrap : wrap (j + 1) = wrap j + 1 := by
      unfold wrap
      omega
    obtain ⟨hsnap, -⟩ := le_snapUpSize (wrap (j + 1))
    rw [roomFor, hsum] at hroom ⊢
    refine .inr ⟨hlimit, by omega, hroom, fun hlt => ?_⟩
    have hj : wrap j = j := wrap_eq (by omega) (by omega)
    omega

theorem created_run (s : CString) {i : Int} (hlt : i < 2 ^ 31) :
    (grantedNew results = false ∧
      ∃ results', (created i s).run results = some (none, results')) ∨
    (grantedNew results = true ∧ i ≤ s.val.length ∧ (created i s).run results = none) ∨
    (grantedNew results = true ∧ s.val.length < i ∧ ∃ b results',
      (created i s).run results = some (some b, results') ∧ Represents b s.val) := by
  rw [created, grantedNew, run_bind alloc_run]
  cases results.headD true with
  | false => exact .inl ⟨rfl, results.tail, rfl⟩
  | true =>
    rw [if_pos rfl, run_bind alloc_run]
    cases results.tail.headD true with
    | false => exact .inl ⟨rfl, results.tail.tail, rfl⟩
    | true =>
      rw [if_pos rfl]
      by_cases hi : s.val.length < i
      · obtain ⟨x, hx, hrep⟩ := Bstr.created hi hlt
        have hslen : wrap s.val.length = s.val.length := wrap_eq (by omega) (by omega)
        refine .inr (.inr ⟨rfl, hi, ⟨i, s.val.length, x⟩, results.tail.tail, ?_, hrep⟩)
        rw [hx, hslen]
        rfl
      · have hoverflow : move (malloc i.toNat) 0 (withNul s.val) (s.val.length + 1) = none := by
          rw [move, if_neg (by rw [length_malloc]; omega)]
        refine .inr (.inl ⟨rfl, Int.not_lt.1 hi, ?_⟩)
        rw [hoverflow]
        rfl

end Luaxx.Bstr.Failing
