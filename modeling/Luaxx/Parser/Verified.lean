import Luaxx.Parser.Precedence

/-!
# `subexpr` follows the grammar

A call with a limit reads an expression of one level of the grammar, as long as it can. What comes
after an expression must not be taken by one of the calls that end where it ends: the lowest of their
limits decides.
-/

namespace Luaxx.Parser

open Code (BinOpr UnOpr)

/-- The level of what `subexpr` reads with a limit below the priority of `^`. -/
def levelOf (limit : Nat) : Nat :=
  if limit < 1 then 1
  else if limit < 2 then 2
  else if limit < 3 then 3
  else if limit < 5 then 4
  else if limit < 6 then 5
  else if limit < 7 then 6
  else unaryLevel

/-- The lowest limit of the calls inside that end where the expression ends. -/
def Written.endLimit : Written → Nat
  | .operand _ | .compound _ | .suffixed _ _ | .paren _ => 10
  | .unop _ w => min UNARY_PRIORITY w.endLimit
  | .binop op _ b => min (right op) b.endLimit

/-- No operator of a priority above `limit` comes first. -/
def Stops (limit : Nat) (rest : List Token) : Prop :=
  ∀ op, getbinopr rest = some op → left op ≤ limit

/-- `rest` does not go on with the prefix expression at the end of `w`. -/
def Ends (w : Written) (rest : List Token) : Prop :=
  w.endsPrimary = true → atSuffix rest = false

section

variable {σ E : Type} (g : Generator σ E)

/-- `act` reads the tokens `ts` as far as `rest`. -/
def upTo (rest ts : List Token) (act : Act σ (E × Nat)) : Act σ E := do
  let (v, n) ← act
  if ts.drop (n + 1) = rest then pure v else throw ""

/-- The calls of the code generator for an expression with `rest` after it. -/
def perform : Written → List Token → Act σ E
  | .operand o, _ => g.operand o
  | .compound ts, rest => upTo rest (ts ++ rest) (g.compound (ts ++ rest))
  | .suffixed w ts, rest => do
    let v ← perform w (ts ++ rest)
    upTo rest (ts ++ rest) ( g.suffix v (ts ++ rest))
  | .paren w, rest => do
    let v ← perform w (.char ')' :: rest)
    g.luaK_dischargevars v
  | .unop op w, rest => do
    let v ← perform w rest
    g.luaK_prefix op v
  | .binop op a b, rest => do
    let v ← perform a (binopToken op :: b.tokens ++ rest)
    let v ← g.luaK_infix op v
    let v2 ← perform b rest
    g.luaK_posfix op v v2

end

/-! ## Priorities and levels -/

theorem getbinopr_cons (op : BinOpr) (ts : List Token) :
    getbinopr (binopToken op :: ts) = some op := by
  cases op <;> rfl

theorem getunopr_cons (op : UnOpr) (ts : List Token) :
    getunopr (unopToken op :: ts) = some op := by
  cases op <;> rfl

theorem atSuffix_binop (op : BinOpr) (ts : List Token) : atSuffix (binopToken op :: ts) = false := by
  cases op <;> rfl

theorem of_getbinopr {op : BinOpr} {ts : List Token} (h : getbinopr ts = some op) :
    ts = binopToken op :: ts.tail := by
  unfold getbinopr at h
  split at h <;> cases h <;> rfl

theorem of_getunopr {op : UnOpr} {ts : List Token} (h : getunopr ts = some op) :
    ts = unopToken op :: ts.tail := by
  unfold getunopr at h
  split at h <;> cases h <;> rfl

theorem levelOf_right (op : BinOpr) : levelOf (right op) = rightLevel op := by
  cases op <;> rfl

theorem right_lt (op : BinOpr) : right op < 10 := by cases op <;> decide

theorem levelOf_le (limit : Nat) : levelOf limit ≤ unaryLevel := by
  unfold levelOf unaryLevel
  split_ifs <;> omega

/-- The operators that a call takes are those of its level or a tighter one. -/
theorem lt_left_iff {limit : Nat} (hlimit : limit < 10) (op : BinOpr) :
    limit < left op ↔ levelOf limit ≤ level op := by
  unfold levelOf unaryLevel
  cases op <;> simp only [left, level] <;> split_ifs <;> omega

theorem leftLevel_le {limit : Nat} (hlimit : limit < 10) {op : BinOpr} (h : left op ≤ limit) :
    leftLevel op ≤ levelOf limit := by
  unfold levelOf unaryLevel
  cases op <;> simp only [left] at h <;> simp [leftLevel, rightAssociative, level] <;>
    split_ifs <;> omega

theorem leftLevel_le_iff (op op' : BinOpr) : leftLevel op ≤ level op' ↔ left op ≤ right op' := by
  cases op <;> cases op' <;> decide

theorem leftLevel_le_unary (op : BinOpr) : leftLevel op ≤ unaryLevel ↔ left op ≤ UNARY_PRIORITY := by
  cases op <;> decide

theorem leftLevel_le_rightLevel {op op' : BinOpr} (h : leftLevel op ≤ level op') :
    leftLevel op ≤ rightLevel op' := by
  revert h
  cases op <;> cases op' <;> decide

theorem left_le (op : BinOpr) : left op ≤ 10 := by cases op <;> decide

/-- An operator with an expression of its level on the left is not taken inside it. -/
theorem Exp.left_le {k : Nat} {w : Written} {op : BinOpr} (h : Exp k w) (hop : leftLevel op ≤ k) :
    left op ≤ w.endLimit := by
  induction h with
  | name _ => exact Parser.left_le op
  | operand _ => exact Parser.left_le op
  | compound _ => exact Parser.left_le op
  | suffixed _ _ _ => exact Parser.left_le op
  | paren _ _ => exact Parser.left_le op
  | unop hk _ ih =>
    exact le_min ((leftLevel_le_unary op).mp (hop.trans hk)) (ih (hop.trans hk))
  | binop hk _ _ _ ihb =>
    exact le_min ((leftLevel_le_iff op _).mp (hop.trans hk))
      (ihb (leftLevel_le_rightLevel (hop.trans hk)))

/-- An operator that is not taken inside the expression may have it on the left. -/
theorem Exp.extend {k : Nat} {w : Written} {op : BinOpr} (h : Exp k w) (hk : k ≤ level op)
    (hop : left op ≤ w.endLimit) : Exp (leftLevel op) w := by
  have hle : leftLevel op ≤ 9 := by cases op <;> decide
  cases h with
  | name _ => exact .name (by omega)
  | operand _ => exact .operand hle
  | compound _ => exact .compound hle
  | suffixed _ hw => exact .suffixed (by omega) hw
  | paren hw => exact .paren hw
  | unop _ hw => exact .unop ((leftLevel_le_unary op).mpr (hop.trans (min_le_left _ _))) hw
  | binop _ ha hb => exact .binop ((leftLevel_le_iff op _).mpr (hop.trans (min_le_left _ _))) ha hb

/-! ## What is written is read -/

section

variable {σ E : Type} (g : Generator σ E)

theorem operatorLoop_stop {rec : Nat → List Token → Act σ (E × Option BinOpr × List Token)}
    {limit fuel : Nat} {v : E} {ts : List Token} (h : Stops limit ts) :
    operatorLoop g rec limit fuel (getbinopr ts) v ts = pure (v, getbinopr ts, ts) := by
  cases fuel with
  | zero => rfl
  | succ fuel =>
    cases hop : getbinopr ts with
    | none => rfl
    | some op =>
      rw [operatorLoop]
      exact if_neg (by have := h op hop; omega)

theorem operatorLoop_take {rec : Nat → List Token → Act σ (E × Option BinOpr × List Token)}
    {limit fuel : Nat} {op : BinOpr} {v : E} {ts : List Token} (h : limit < left op) :
    operatorLoop g rec limit (fuel + 1) (some op) v ts = (do
      let v ← g.luaK_infix op v
      let (v2, nextop, ts) ← rec (right op) ts.tail
      let v ← g.luaK_posfix op v v2
      operatorLoop g rec limit fuel nextop v ts) := by
  rw [operatorLoop]
  exact if_pos h

theorem subexpr_unop {l limit : Nat} (op : UnOpr) (ts : List Token) :
    subexpr g (l + 1) limit (unopToken op :: ts) = (do
      let (v, _, ts) ← subexpr g l UNARY_PRIORITY ts
      let v ← g.luaK_prefix op v
      operatorLoop g (subexpr g l) limit ts.length (getbinopr ts) v ts) := by
  rw [subexpr, getunopr_cons]
  simp only [pure_bind, List.tail_cons]

theorem subexpr_simple {l limit : Nat} {ts : List Token} (h : getunopr ts = none) :
    subexpr g (l + 1) limit ts = (do
      let (v, ts) ← simpleexp g (subexpr g l) ts
      operatorLoop g (subexpr g l) limit ts.length (getbinopr ts) v ts) := by
  rw [subexpr, h]

theorem suffixLoop_stop {fuel : Nat} {v : E} {ts : List Token} (h : atSuffix ts = false) :
    suffixLoop g fuel v ts = pure (v, ts) := by
  cases fuel with
  | zero => rfl
  | succ fuel =>
    rw [suffixLoop]
    exact if_neg (by simp [h])

theorem simpleexp_operand {rec : Nat → List Token → Act σ (E × Option BinOpr × List Token)}
    (o : Operand) {rest : List Token} (h : Ends (.operand o) rest) :
    simpleexp g rec (.operand o :: rest) = (do
      let v ← g.operand o
      pure (v, rest)) := by
  cases o with
  | NAME s =>
    rw [simpleexp, primaryexp, prefixexp]
    simp only [bind_assoc, pure_bind, suffixLoop_stop g (h rfl)]
  | _ => rfl

/-- The call reads what was written, and goes on with its loop after it. -/
theorem subexpr_tokens {k : Nat} {w : Written} (hw : Exp k w) (hs : w.erase.Simple) {l limit : Nat}
    {rest : List Token} (hlimit : limit < 10) (hk : levelOf limit ≤ k) (hdepth : w.depth ≤ l)
    (hends : Ends w rest) (hstop : Stops w.endLimit rest) :
    ∃ fuel, rest.length ≤ fuel ∧ subexpr g (l + 1) limit (w.tokens ++ rest) = (do
      let v ← perform g w rest
      operatorLoop g (subexpr g l) limit fuel (getbinopr rest) v rest) := by
  induction hw generalizing l limit rest with
  | name _ | operand _ =>
    refine ⟨_, le_rfl, ?_⟩
    rw [Written.tokens, List.singleton_append, subexpr_simple g rfl, simpleexp_operand g _ hends]
    simp only [bind_assoc, pure_bind, perform]
  | compound _ => exact hs.elim
  | suffixed _ _ _ => exact hs.elim
  | @paren k w hw ih =>
    refine ⟨_, le_rfl, ?_⟩
    obtain ⟨l, rfl⟩ : ∃ m, l = m + 1 := ⟨l - 1, by have : w.depth + 1 ≤ l := hdepth; omega⟩
    have hnone : Stops w.endLimit (.char ')' :: rest) := by
      intro op hop
      cases hop
    obtain ⟨fuel, -, heq⟩ := ih hs (by decide : 0 < 10) (le_refl 1)
      (Nat.le_of_succ_le_succ hdepth) (fun _ => rfl) hnone
    have hstop0 : Stops 0 (.char ')' :: rest) := by
      intro op hop
      cases hop
    have htokens : (Written.paren w).tokens ++ rest =
        .char '(' :: (w.tokens ++ .char ')' :: rest) := by simp [Written.tokens]
    rw [htokens, subexpr_simple g rfl, simpleexp, primaryexp, prefixexp, heq]
    simp only [bind_assoc, pure_bind, operatorLoop_stop g hstop0, perform,
      suffixLoop_stop g (hends rfl)]
    · intro s ts h
      cases h
    · intro o ts h
      cases h
    · intro ts h
      cases h
    · intro ts h
      cases h
  | @unop k op w _ hw ih =>
    refine ⟨_, le_rfl, ?_⟩
    obtain ⟨l, rfl⟩ : ∃ m, l = m + 1 := ⟨l - 1, by have : w.depth + 1 ≤ l := hdepth; omega⟩
    obtain ⟨fuel, -, heq⟩ := ih hs (by decide : UNARY_PRIORITY < 10) (levelOf_le _)
      (Nat.le_of_succ_le_succ hdepth) hends (fun op h => (hstop op h).trans (min_le_right _ _))
    have hstop8 : Stops UNARY_PRIORITY rest := fun op h => (hstop op h).trans (min_le_left _ _)
    rw [Written.tokens, List.cons_append, subexpr_unop, heq]
    simp only [bind_assoc, pure_bind, operatorLoop_stop g hstop8, perform]
  | @binop k op a b hop ha hb iha ihb =>
    have hb1 : b.depth + 1 ≤ l := (le_max_right _ _).trans hdepth
    obtain ⟨l, rfl⟩ : ∃ m, l = m + 1 := ⟨l - 1, by omega⟩
    have hnext : getbinopr (binopToken op :: (b.tokens ++ rest)) = some op := getbinopr_cons _ _
    have hstopa : Stops a.endLimit (binopToken op :: (b.tokens ++ rest)) := by
      intro op' h
      rw [hnext] at h
      cases h
      exact ha.left_le le_rfl
    have hle : level op ≤ leftLevel op := by cases op <;> decide
    obtain ⟨fuel, hfuel, heqa⟩ := iha hs.1 hlimit (hk.trans (hop.trans hle))
      ((le_max_left _ _).trans hdepth) (fun _ => atSuffix_binop _ _) hstopa
    obtain ⟨_, -, heqb⟩ := ihb hs.2 (right_lt op) (levelOf_right op).le
      (Nat.le_of_succ_le_succ hb1) hends (fun op h => (hstop op h).trans (min_le_right _ _))
    obtain ⟨fuel, rfl⟩ : ∃ m, fuel = m + 1 := ⟨fuel - 1, by simp at hfuel; omega⟩
    refine ⟨fuel, by simp at hfuel; omega, ?_⟩
    have hstopr : Stops (right op) rest := fun op h => (hstop op h).trans (min_le_left _ _)
    have htokens : (Written.binop op a b).tokens ++ rest =
        a.tokens ++ binopToken op :: (b.tokens ++ rest) := by simp [Written.tokens]
    have htake := (lt_left_iff hlimit op).mpr (hk.trans hop)
    rw [htokens, heqa, hnext]
    simp only [operatorLoop_take g htake, List.tail_cons, heqb, bind_assoc, pure_bind,
      operatorLoop_stop g hstopr, perform, List.cons_append]

/-! ## Too many levels -/

/-- It raises an error in every state. -/
def Fails {α : Type} (x : Act σ α) : Prop := ∀ s, ∃ msg, x s = .error msg

theorem Fails.bind {α β : Type} {x : Act σ α} (h : Fails x) (f : α → Act σ β) :
    Fails (x >>= f) := by
  intro s
  obtain ⟨msg, hx⟩ := h s
  refine ⟨msg, ?_⟩
  show (x s >>= _) = _
  rw [hx]
  rfl

theorem fails_bind {α β : Type} {x : Act σ α} {f : α → Act σ β} (h : ∀ a, Fails (f a)) :
    Fails (x >>= f) := by
  intro s
  cases hx : x s with
  | error msg =>
    refine ⟨msg, ?_⟩
    show (x s >>= _) = _
    rw [hx]
    rfl
  | ok r =>
    obtain ⟨msg, hf⟩ := h r.1 r.2
    refine ⟨msg, ?_⟩
    show (x s >>= _) = _
    rw [hx]
    exact hf

theorem subexpr_fails {k : Nat} {w : Written} (hw : Exp k w) (hs : w.erase.Simple)
    {levels limit : Nat} {rest : List Token} (hlimit : limit < 10) (hk : levelOf limit ≤ k)
    (hdepth : levels ≤ w.depth) (hends : Ends w rest) (hstop : Stops w.endLimit rest) :
    Fails (subexpr g levels limit (w.tokens ++ rest)) := by
  induction hw generalizing levels limit rest with
  | name _ | operand _ =>
    obtain rfl : levels = 0 := Nat.le_zero.mp hdepth
    exact fun s => ⟨_, rfl⟩
  | compound _ => exact hs.elim
  | suffixed _ _ _ => exact hs.elim
  | @paren k w hw ih =>
    cases levels with
    | zero => exact fun s => ⟨_, rfl⟩
    | succ l =>
      have hnone : Stops w.endLimit (.char ')' :: rest) := by
        intro op hop
        cases hop
      have hfails := ih hs (by decide : 0 < 10) (le_refl 1) (Nat.le_of_succ_le_succ hdepth)
        (fun _ => rfl) hnone
      have htokens : (Written.paren w).tokens ++ rest =
          .char '(' :: (w.tokens ++ .char ')' :: rest) := by simp [Written.tokens]
      rw [htokens, subexpr_simple g rfl]
      exact ((hfails.bind _).bind _).bind _
  | @unop k op w _ hw ih =>
    cases levels with
    | zero => exact fun s => ⟨_, rfl⟩
    | succ l =>
      have hfails := ih hs (by decide : UNARY_PRIORITY < 10) (levelOf_le _)
        (Nat.le_of_succ_le_succ hdepth) hends (fun op h => (hstop op h).trans (min_le_right _ _))
      rw [Written.tokens, List.cons_append, subexpr_unop]
      exact hfails.bind _
  | @binop k op a b hop ha hb iha ihb =>
    have hnext : getbinopr (binopToken op :: (b.tokens ++ rest)) = some op := getbinopr_cons _ _
    have hstopa : Stops a.endLimit (binopToken op :: (b.tokens ++ rest)) := by
      intro op' h
      rw [hnext] at h
      cases h
      exact ha.left_le le_rfl
    have hle : level op ≤ leftLevel op := by cases op <;> decide
    have hka := hk.trans (hop.trans hle)
    have htokens : (Written.binop op a b).tokens ++ rest =
        a.tokens ++ binopToken op :: (b.tokens ++ rest) := by simp [Written.tokens]
    rw [htokens]
    rcases le_or_gt levels a.depth with hdeep | hdeep
    · exact iha hs.1 hlimit hka hdeep (fun _ => atSuffix_binop _ _) hstopa
    · -- the left operand is read, and the right one is too deep
      obtain ⟨l, rfl⟩ : ∃ m, levels = m + 1 := ⟨levels - 1, by omega⟩
      obtain ⟨fuel, hfuel, heqa⟩ := subexpr_tokens g ha hs.1 hlimit hka (Nat.le_of_lt_succ hdeep)
        (fun _ => atSuffix_binop _ _) hstopa
      have hb1 : l ≤ b.depth := by
        have : l + 1 ≤ max a.depth (b.depth + 1) := hdepth
        omega
      have hfails := ihb hs.2 (right_lt op) (levelOf_right op).le hb1 hends
        (fun op h => (hstop op h).trans (min_le_right _ _))
      obtain ⟨fuel, rfl⟩ : ∃ m, fuel = m + 1 := ⟨fuel - 1, by simp at hfuel; omega⟩
      rw [heqa, hnext]
      refine fails_bind fun v => ?_
      rw [operatorLoop_take g ((lt_left_iff hlimit op).mpr (hk.trans hop))]
      exact fails_bind fun v => hfails.bind _

/-! ## What is read was written -/

theorem bind_ok {α β : Type} {x : Act σ α} {f : α → Act σ β} {s s' : σ} {b : β}
    (h : (x >>= f) s = .ok (b, s')) : ∃ a s1, x s = .ok (a, s1) ∧ f a s1 = .ok (b, s') := by
  change (x s >>= fun r => f r.1 r.2) = _ at h
  cases hx : x s with
  | error msg =>
    rw [hx] at h
    cases h
  | ok r =>
    rw [hx] at h
    exact ⟨r.1, r.2, rfl, h⟩

theorem ok_bind {α β : Type} {x : Act σ α} {f : α → Act σ β} {s s1 : σ} {a : α}
    (h : x s = .ok (a, s1)) : (x >>= f) s = f a s1 := by
  show (x s >>= fun r => f r.1 r.2) = _
  rw [h]
  rfl

/-- From the state `s` on, the tokens `ts` are `w` as far as `rest`, and the calls for it give `v`. -/
structure Reads (ts : List Token) (s : σ) (w : Written) (v : E) (rest : List Token) (s' : σ) :
    Prop where
  tokens : ts = w.tokens ++ rest
  perform : perform g w rest s = .ok (v, s')
  ends : Ends w rest
  stops : Stops w.endLimit rest

variable {g}

theorem endLimit_of_primary {w : Written} (h : Exp 10 w) : w.endLimit = 10 := by
  cases h with
  | name _ | operand _ | compound _ | suffixed _ _ | paren _ => rfl
  | unop h _ => exact absurd h (by decide)
  | @binop _ op _ _ h _ _ => exact absurd h (by cases op <;> decide)

theorem stops_ten (ts : List Token) : Stops 10 ts := fun op _ => left_le op

theorem suffixLoop_reads {fuel : Nat} {ts0 ts rest : List Token} {s0 s s' : σ} {w : Written}
    {v v' : E} (hw : Exp 10 w) (htokens : ts0 = w.tokens ++ ts)
    (hperform : perform g w ts s0 = .ok (v, s)) (hfuel : ts.length ≤ fuel)
    (h : suffixLoop g fuel v ts s = .ok ((v', rest), s')) :
    ∃ w', Exp 10 w' ∧ w'.depth = w.depth ∧ Reads g ts0 s0 w' v' rest s' := by
  induction fuel generalizing ts s w v with
  | zero =>
    obtain rfl : ts = [] := List.eq_nil_of_length_eq_zero (Nat.le_zero.mp hfuel)
    cases h
    refine ⟨w, hw, rfl, ⟨htokens, hperform, fun _ => rfl, ?_⟩⟩
    exact endLimit_of_primary hw ▸ stops_ten _
  | succ fuel ih =>
    rw [suffixLoop] at h
    by_cases hat : atSuffix ts = true
    · rw [if_pos hat] at h
      obtain ⟨⟨v1, n⟩, s1, hsuffix, hloop⟩ := bind_ok h
      have hsplit : ts.take (n + 1) ++ ts.drop (n + 1) = ts := List.take_append_drop _ _
      have hw1 : Exp 10 (.suffixed w (ts.take (n + 1))) := .suffixed le_rfl hw
      have hperform1 : perform g (.suffixed w (ts.take (n + 1))) (ts.drop (n + 1)) s0 =
          .ok (v1, s1) := by
        rw [perform, hsplit, ok_bind hperform, upTo, ok_bind hsuffix]
        exact congrFun (if_pos rfl) _
      have hlt : (ts.drop (n + 1)).length ≤ fuel := by
        rw [List.length_drop]
        omega
      obtain ⟨w', hw', hdepth, hreads⟩ := ih (w := .suffixed w (ts.take (n + 1))) hw1
        (by rw [htokens, Written.tokens, List.append_assoc, hsplit]) hperform1 hlt hloop
      exact ⟨w', hw', hdepth, hreads⟩
    · rw [if_neg hat] at h
      cases h
      refine ⟨w, hw, rfl, ⟨htokens, hperform, fun _ => by simpa using hat, ?_⟩⟩
      exact endLimit_of_primary hw ▸ stops_ten _

/-- What a call of `subexpr` reads. -/
def SubexprReads (g : Generator σ E) (levels : Nat) : Prop :=
  ∀ {limit ts s v op rest s'}, limit < 10 → subexpr g levels limit ts s = .ok ((v, op, rest), s') →
    ∃ w, Exp (levelOf limit) w ∧ w.depth < levels ∧ Reads g ts s w v rest s' ∧
      op = getbinopr rest ∧ Stops limit rest

theorem primaryexp_reads {l : Nat} (hrec : SubexprReads g l) {ts rest : List Token} {s s' : σ}
    {v : E} (h : primaryexp g (subexpr g l) ts s = .ok ((v, rest), s')) :
    ∃ w, Exp 10 w ∧ w.depth ≤ l ∧ Reads g ts s w v rest s' := by
  obtain ⟨⟨v0, ts1⟩, s1, hprefix, hloop⟩ := bind_ok h
  unfold prefixexp at hprefix
  split at hprefix
  · obtain ⟨⟨v1, _, ts2⟩, s2, hexpr, hclose⟩ := bind_ok hprefix
    obtain ⟨w, hw, hdepth, hreads, -, -⟩ := hrec (by decide) hexpr
    dsimp only at hclose
    split at hclose
    · obtain ⟨v2, s3, hdischarge, hpure⟩ := bind_ok hclose
      cases hpure
      have hperform : perform g (.paren w) ts1 s = .ok (v0, s1) := by
        rw [perform, ok_bind hreads.perform, hdischarge]
      have htokens := congrArg (Token.char '(' :: ·) hreads.tokens
      obtain ⟨w', hw', hd, hr⟩ := suffixLoop_reads (.paren hw)
        (htokens.trans (by simp [Written.tokens])) hperform le_rfl hloop
      exact ⟨w', hw', by rw [hd]; exact hdepth, hr⟩
    · cases hclose
  · obtain ⟨v1, s2, hname, hpure⟩ := bind_ok hprefix
    cases hpure
    obtain ⟨w', hw', hd, hr⟩ := suffixLoop_reads (.name le_rfl) rfl hname le_rfl hloop
    exact ⟨w', hw', by rw [hd]; exact Nat.zero_le _, hr⟩
  · cases hprefix

theorem simpleexp_reads {l : Nat} (hrec : SubexprReads g l) {ts rest : List Token} {s s' : σ}
    {v : E} (h : simpleexp g (subexpr g l) ts s = .ok ((v, rest), s')) :
    ∃ w, Exp 9 w ∧ w.depth ≤ l ∧ Reads g ts s w v rest s' := by
  have hprimary : primaryexp g (subexpr g l) ts s = .ok ((v, rest), s') →
      ∃ w, Exp 9 w ∧ w.depth ≤ l ∧ Reads g ts s w v rest s' := by
    intro h
    obtain ⟨w, hw, hdepth, hreads⟩ := primaryexp_reads hrec h
    exact ⟨w, hw.mono (by decide), hdepth, hreads⟩
  have hcompound : ∀ t ts', ts = t :: ts' → (g.compound ts >>= fun p =>
      (pure (p.1, ts.drop (p.2 + 1)) : Act σ (E × List Token))) s = .ok ((v, rest), s') →
      ∃ w, Exp 9 w ∧ w.depth ≤ l ∧ Reads g ts s w v rest s' := by
    intro t ts' hts h
    obtain ⟨⟨v1, n⟩, s1, hcompound, hpure⟩ := bind_ok h
    cases hpure
    have hsplit : ts.take (n + 1) ++ ts.drop (n + 1) = ts := List.take_append_drop _ _
    refine ⟨.compound (ts.take (n + 1)), .compound le_rfl, Nat.zero_le _, hsplit.symm, ?_,
      fun h => Bool.noConfusion h, stops_ten _⟩
    rw [perform, hsplit, upTo, ok_bind hcompound]
    exact congrFun (if_pos rfl) _
  unfold simpleexp at h
  split at h
  · exact hprimary h
  · next o ts' hname =>
    obtain ⟨v1, s1, hoperand, hpure⟩ := bind_ok h
    cases hpure
    refine ⟨.operand o, .operand le_rfl, Nat.zero_le _, rfl, hoperand, fun hends => ?_, stops_ten _⟩
    cases o with
    | NAME s => exact (hname s rfl).elim
    | _ => cases hends
  · exact hcompound _ _ rfl h
  · exact hcompound _ _ rfl h
  · exact hprimary h

theorem operatorLoop_reads {l limit fuel : Nat} (hrec : SubexprReads g l) (hlimit : limit < 10)
    {ts0 ts rest : List Token} {s0 s s' : σ} {w : Written} {v v' : E} {op : Option BinOpr}
    (hw : Exp (levelOf limit) w) (hdepth : w.depth ≤ l) (hreads : Reads g ts0 s0 w v ts s)
    (hfuel : ts.length ≤ fuel)
    (h : operatorLoop g (subexpr g l) limit fuel (getbinopr ts) v ts s = .ok ((v', op, rest), s')) :
    ∃ w', Exp (levelOf limit) w' ∧ w'.depth ≤ l ∧ Reads g ts0 s0 w' v' rest s' ∧
      op = getbinopr rest ∧ Stops limit rest := by
  induction fuel generalizing ts s w v with
  | zero =>
    obtain rfl : ts = [] := List.eq_nil_of_length_eq_zero (Nat.le_zero.mp hfuel)
    cases h
    exact ⟨w, hw, hdepth, hreads, rfl, fun op h => by cases h⟩
  | succ fuel ih =>
    by_cases hstop : Stops limit ts
    · rw [operatorLoop_stop g hstop] at h
      cases h
      exact ⟨w, hw, hdepth, hreads, rfl, hstop⟩
    · -- the operator is taken, and what is to its right becomes the second operand
      obtain ⟨bop, hbop, hlt⟩ : ∃ bop, getbinopr ts = some bop ∧ limit < left bop := by
        simpa [Stops] using hstop
      rw [hbop, operatorLoop_take g hlt] at h
      obtain ⟨v1, s1, hinfix, h⟩ := bind_ok h
      obtain ⟨⟨v2, nextop, ts2⟩, s2, hright, h⟩ := bind_ok h
      obtain ⟨v3, s3, hposfix, hloop⟩ := bind_ok h
      obtain ⟨b, hb, hbdepth, hbreads, rfl, hbstop⟩ := hrec (right_lt bop) hright
      have hts := of_getbinopr hbop
      have hle := (lt_left_iff hlimit bop).mp hlt
      have hw1 : Exp (levelOf limit) (.binop bop w b) :=
        .binop hle (hw.extend hle (hreads.stops bop hbop)) (levelOf_right bop ▸ hb)
      have htail : binopToken bop :: b.tokens ++ ts2 = ts := by
        rw [List.cons_append, ← hbreads.tokens, ← hts]
      have hreads1 : Reads g ts0 s0 (.binop bop w b) v3 ts2 s3 := by
        refine ⟨?_, ?_, hbreads.ends, fun op h => le_min (hbstop op h) (hbreads.stops op h)⟩
        · rw [Written.tokens, List.append_assoc, htail]
          exact hreads.tokens
        · rw [perform, htail, ok_bind hreads.perform, ok_bind hinfix, ok_bind hbreads.perform,
            hposfix]
      have hlen : ts2.length ≤ fuel := by
        have := congrArg List.length htail
        simp at this
        omega
      exact ih hw1 (max_le hdepth hbdepth) hreads1 hlen hloop

theorem subexpr_reads (levels : Nat) : SubexprReads g levels := by
  induction levels with
  | zero =>
    intro limit ts s v op rest s' _ h
    cases h
  | succ l hrec =>
    intro limit ts s v op rest s' hlimit h
    have hle : levelOf limit ≤ 9 := (levelOf_le limit).trans (by decide)
    cases hun : getunopr ts with
    | some uop =>
      rw [of_getunopr hun, subexpr_unop] at h
      obtain ⟨⟨v1, op1, ts1⟩, s1, hoperand, h⟩ := bind_ok h
      obtain ⟨v2, s2, hprefix, hloop⟩ := bind_ok h
      obtain ⟨w, hw, hdepth, hreads, -, hstop⟩ := hrec (by decide) hoperand
      have hreads1 : Reads g ts s (.unop uop w) v2 ts1 s2 := by
        refine ⟨?_, ?_, hreads.ends, fun op h => le_min (hstop op h) (hreads.stops op h)⟩
        · rw [Written.tokens, List.cons_append, ← hreads.tokens, ← of_getunopr hun]
        · rw [perform, ok_bind hreads.perform, hprefix]
      obtain ⟨w', hw', hd', hr', hop, hs'⟩ := operatorLoop_reads hrec hlimit
        (.unop (levelOf_le limit) hw) hdepth hreads1 le_rfl hloop
      exact ⟨w', hw', Nat.lt_succ_of_le hd', hr', hop, hs'⟩
    | none =>
      rw [subexpr_simple g hun] at h
      obtain ⟨⟨v1, ts1⟩, s1, hsimple, hloop⟩ := bind_ok h
      obtain ⟨w, hw, hdepth, hreads⟩ := simpleexp_reads hrec hsimple
      obtain ⟨w', hw', hd', hr', hop, hs'⟩ := operatorLoop_reads hrec hlimit
        (hw.mono hle) hdepth hreads le_rfl hloop
      exact ⟨w', hw', Nat.lt_succ_of_le hd', hr', hop, hs'⟩

end

/-! ## Precedence -/

/-- What `subexpr` with a limit reads is the longest expression of its level in front, with the calls
for its tree: an expression as it is written with the fewest parentheses, unless its calls nest too
deep, and otherwise the same with more parentheses. -/
theorem subexpr_precedence {σ E : Type} (g : Generator σ E) (nCcalls limit : Nat)
    (hlimit : limit < left .POW) :
    (∀ e : Expr, e.Simple → ∀ rest, Ends (e.write (levelOf limit)) rest → Stops limit rest →
      (∀ w, Exp (levelOf limit) w → w.erase = e →
        (e.write (levelOf limit)).parens ≤ w.parens) ∧
      (nCcalls + (e.write (levelOf limit)).depth < LUAI_MAXCCALLS →
        subexpr g (LUAI_MAXCCALLS - nCcalls) limit ((e.write (levelOf limit)).tokens ++ rest) = (do
          let v ← perform g (e.write (levelOf limit)) rest
          pure (v, getbinopr rest, rest))) ∧
      (LUAI_MAXCCALLS ≤ nCcalls + (e.write (levelOf limit)).depth →
        Fails (subexpr g (LUAI_MAXCCALLS - nCcalls) limit
          ((e.write (levelOf limit)).tokens ++ rest)))) ∧
    ∀ ts s v op rest s',
      subexpr g (LUAI_MAXCCALLS - nCcalls) limit ts s = .ok ((v, op, rest), s') →
      ∃ w, Exp (levelOf limit) w ∧ Extra (w.erase.write (levelOf limit)) w ∧
        nCcalls + w.depth < LUAI_MAXCCALLS ∧ Reads g ts s w v rest s' ∧ op = getbinopr rest ∧
        Stops limit rest := by
  constructor
  · intro e hs rest hends hstop
    have hw := exp_write (levelOf limit) e
    have herase : (e.write (levelOf limit)).erase.Simple := (erase_write _ e).symm ▸ hs
    have hstops : Stops (e.write (levelOf limit)).endLimit rest := fun op h =>
      hw.left_le (leftLevel_le hlimit (hstop op h))
    refine ⟨?_, ?_, ?_⟩
    · rintro w hexp rfl
      exact hexp.extra.parens_le
    · intro hdepth
      obtain ⟨l, hl⟩ : ∃ l, LUAI_MAXCCALLS - nCcalls = l + 1 :=
        ⟨LUAI_MAXCCALLS - nCcalls - 1, by omega⟩
      obtain ⟨fuel, -, heq⟩ := subexpr_tokens g hw herase hlimit le_rfl
        (by omega : (e.write (levelOf limit)).depth ≤ l) hends hstops
      rw [hl, heq]
      simp only [operatorLoop_stop g hstop]
    · intro hdepth
      exact subexpr_fails g hw herase hlimit le_rfl (by omega) hends hstops
  · intro ts s v op rest s' h
    obtain ⟨w, hw, hdepth, hreads, hop, hstop⟩ := subexpr_reads _ hlimit h
    exact ⟨w, hw, hw.extra, by omega, hreads, hop, hstop⟩

/-- The generator that builds the tree. -/
def builder : Generator Unit Expr where
  operand o := pure (.operand o)
  luaK_dischargevars e := pure e
  luaK_prefix op e := pure (.unop op e)
  luaK_infix _ e := pure e
  luaK_posfix op a b := pure (.binop op a b)
  compound ts := pure (.compound (ts.take 1), 0)
  suffix e ts := pure (.suffixed e (ts.take 1), 0)

/-- `-x^-x..x*(x..x)==nil`. -/
theorem subexpr_precedence_mixed :
    let x : Operand := .NAME [120]
    subexpr builder LUAI_MAXCCALLS 0
      [.char '-', .operand x, .char '^', .char '-', .operand x, .CONCAT, .operand x, .char '*',
        .char '(', .operand x, .CONCAT, .operand x, .char ')', .EQ, .operand .NIL] () =
      .ok ((.binop .EQ
        (.binop .CONCAT (.unop .MINUS (.binop .POW (.operand x) (.unop .MINUS (.operand x))))
          (.binop .MUL (.operand x) (.binop .CONCAT (.operand x) (.operand x))))
        (.operand .NIL), none, []), ()) := by
  intro x
  have h := (subexpr_precedence builder 0 0 (by decide)).1
    (.binop .EQ
      (.binop .CONCAT (.unop .MINUS (.binop .POW (.operand x) (.unop .MINUS (.operand x))))
        (.binop .MUL (.operand x) (.binop .CONCAT (.operand x) (.operand x))))
      (.operand .NIL))
    ⟨⟨⟨trivial, trivial⟩, trivial, trivial, trivial⟩, trivial⟩ [] (fun _ => rfl)
    (fun _ h => by cases h)
  exact congrFun (h.2.1 (by decide)) ()

/-- `not not … nil`. -/
def nots : Nat → Expr
  | 0 => .operand .NIL
  | n + 1 => .unop .NOT (nots n)

theorem unaryLevel_le_nots (n : Nat) : unaryLevel ≤ (nots n).level := by
  cases n with
  | zero => decide
  | succ n => exact le_rfl

theorem depth_nots (n : Nat) : (nots n).bare.depth = n := by
  induction n with
  | zero => rfl
  | succ n ih =>
    have henclose : Expr.enclose unaryLevel (nots n) (nots n).bare = (nots n).bare :=
      if_neg (not_lt.mpr (unaryLevel_le_nots n))
    show (Expr.enclose unaryLevel (nots n) (nots n).bare).depth + 1 = n + 1
    rw [henclose, ih]

theorem simple_nots (n : Nat) : (nots n).Simple := by
  induction n with
  | zero => trivial
  | succ n ih => exact ih

/-- An expression whose calls nest too deep is refused. -/
theorem too_many_syntax_levels :
    ∃ e : Expr, e.Simple ∧ ∃ msg, expr builder 0 (e.write (levelOf 0)).tokens () = .error msg := by
  have hwrite : (nots LUAI_MAXCCALLS).write (levelOf 0) = (nots LUAI_MAXCCALLS).bare :=
    write_eq_bare (one_le_level _)
  have hfails : Fails (subexpr builder LUAI_MAXCCALLS 0
      (((nots LUAI_MAXCCALLS).write (levelOf 0)).tokens ++ [])) := by
    refine subexpr_fails builder (exp_write _ _) ?_ (by decide) le_rfl ?_ ?_ (fun _ h => by cases h)
    · rw [erase_write]
      exact simple_nots _
    · rw [hwrite, depth_nots]
    · exact fun _ => rfl
  rw [List.append_nil] at hfails
  exact ⟨nots LUAI_MAXCCALLS, simple_nots _, hfails.bind _ ()⟩

end Luaxx.Parser
