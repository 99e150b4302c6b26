import Luaxx.Lib.Segments
import Luaxx.Tablib.Sort

/-!
# Quicksort with any comparator

What is known of a comparator is a `Judge`: a consistent one answers by an order, and of any other
nothing is known. Both are followed through `auxsort` together. What a run with an inconsistent
comparator relies on is that no search upwards ends behind its segment.
-/

namespace Luaxx.Tablib

open Luaxx.Int32 Luaxx.Segments Luaxx.Tracing Luaxx.Vm

variable {σ ε : Type} (host : Host σ ε) (comparator : Comparator σ ε)

/-- The comparison of two values. -/
def ask (a b : TValue) : LuaM σ ε Bool :=
  match comparator with
  | .function _ call => do
    let v ← call a b
    pure !v.l_isfalse
  | .nil => luaV_lessthan host a b

/-- What an answer says about two values, where `Le` is the order. -/
def Answered (consistent : Prop) (Le : TValue → TValue → Prop) (a b : TValue) : Bool → Prop
  | true => Le a b ∧ (consistent → ¬ Le b a)
  | false => Le b a

structure Judge where
  consistent : Prop
  /-- The values that are compared. -/
  S : TValue → Prop
  Le : TValue → TValue → Prop
  refl : ∀ a, S a → Le a a
  trans : ∀ a b c, S a → S b → S c → Le a b → Le b c → Le a c
  mem_of_not : ¬ consistent → ∀ a, S a
  le_of_not : ¬ consistent → ∀ a b, Le a b
  answer : ∀ a b rest, S a → S b →
    match (ask host comparator a b).run rest with
    | (.ok less, _) => Answered consistent Le a b less
    | (.error _, _) => ¬ consistent

/-- What a run relies on. -/
def Event.Assumed (consistent : Prop) : Event → Prop
  | .stopped i u => ¬ consistent → i ≤ u
  | _ => True

/-- What a run guarantees, for a table of length `n` and so many values on the stack at the start. -/
def Event.Allowed (consistent : Prop) (n : Int) (top : Nat) : Event → Prop
  | .read i => consistent → 1 ≤ i ∧ i ≤ n
  | .write i => 1 ≤ i ∧ i ≤ n
  | .call k => k = top
  | .leave k => k = top
  | .stopped _ _ => True

/-- An error of Lua. -/
def Stop.Raised : Stop ε → Prop
  | .error _ => True
  | .raised _ => True
  | _ => False

variable {host comparator}

/-- The run ends with a result that satisfies `Q`, or an inconsistent comparator has led to an
error. -/
def Judge.Runs (J : Judge host comparator) (n : Int) (top : Nat) {α : Type} (Q : α → State σ → Prop)
    (o : Outcome (Stop ε) Event (State σ) α) : Prop :=
  Ends (Event.Assumed J.consistent) (Event.Allowed J.consistent n top)
    (fun e _ => ¬ J.consistent ∧ e.Raised) Q o

variable {J : Judge host comparator} {n : Int} {top : Nat} {t : Int → TValue} {st : List TValue}
  {P : TValue} {rest : σ} {l u i j m : Int} {fuel k : Nat}

/-! ## Comparisons -/

theorem lift_ask {a b : TValue} (ha : J.S a) (hb : J.S b) (t : Int → TValue) (st : List TValue)
    (rest : σ) :
    J.Runs n top
      (fun less s' => (∃ rest', s' = ⟨rest', t, st⟩) ∧ Answered J.consistent J.Le a b less)
      (lift (ask host comparator a b) ⟨rest, t, st⟩) := by
  have hanswer := J.answer a b rest ha hb
  rw [lift]
  rcases h : (ask host comparator a b).run rest with ⟨e | less, rest'⟩
  · rw [h] at hanswer
    exact ends_fail ⟨hanswer, trivial⟩
  · rw [h] at hanswer
    exact ends_pure ⟨⟨rest', rfl⟩, hanswer⟩

theorem lift_ok {α : Type} {x : LuaM σ ε α} {a : α} {rest' : σ} (h : x.run rest = (.ok a, rest'))
    (t : Int → TValue) (st : List TValue) :
    lift x ⟨rest, t, st⟩ = ⟨.ok a, ⟨rest', t, st⟩, []⟩ := by
  rw [lift, h]

theorem lift_error {α : Type} {x : LuaM σ ε α} {e : ε} {rest' : σ}
    (h : x.run rest = (.error e, rest')) (t : Int → TValue) (st : List TValue) :
    lift x ⟨rest, t, st⟩ = ⟨.error (.raised e), ⟨rest', t, st⟩, []⟩ := by
  rw [lift, h]

theorem lua_call_ends {f : TValue} {call : TValue → TValue → LuaM σ ε TValue}
    {J : Judge host (.function f call)} {x y : TValue} (hx : J.S x) (hy : J.S y) :
    J.Runs n top
      (fun _ s' => ∃ rest' v, s' = ⟨rest', t, v :: st⟩ ∧
        Answered J.consistent J.Le x y !v.l_isfalse)
      (lua_call call ⟨rest, t, y :: x :: f :: st⟩) := by
  have hanswer := J.answer x y rest hx hy
  refine ends_silent (index2adr_eq _ (-2)) (ends_silent (index2adr_eq _ (-1)) ?_)
  rcases hcall : (call x y).run rest with ⟨e | v, rest'⟩
  · have hask : (ask host (.function f call) x y).run rest = (.error e, rest') :=
      run_bind_error hcall
    rw [hask] at hanswer
    exact ends_failed (lift_error hcall t _) ⟨hanswer, trivial⟩
  · have hask : (ask host (.function f call) x y).run rest = (.ok !v.l_isfalse, rest') :=
      run_bind_ok hcall
    rw [hask] at hanswer
    exact ends_silent (lift_ok hcall t _) (ends_silent (lua_pop_eq _ 3) (ends_pure ⟨rest', v, rfl, hanswer⟩))

theorem sort_comp_ends {a b : Int} {x y : TValue} (ha : a < 0) (hb : b < 0)
    (hx : st.getD (-a - 1).toNat .nil = x) (hy : st.getD (-b - 1).toNat .nil = y) (hSx : J.S x)
    (hSy : J.S y) :
    J.Runs n top
      (fun less s' => (∃ rest', s' = ⟨rest', t, st⟩) ∧ Answered J.consistent J.Le x y less)
      (sort_comp host comparator a b ⟨rest, t, st⟩) := by
  cases comparator with
  | nil =>
    refine ends_silent (index2adr_eq _ a) (ends_silent (index2adr_eq _ b) ?_)
    dsimp only
    rw [hx, hy]
    exact lift_ask hSx hSy t st rest
  | function f call =>
    have hx' : (f :: st).getD (-(a - 1) - 1).toNat .nil = x := by
      rw [show (-(a - 1) - 1).toNat = (-a - 1).toNat + 1 by omega]
      exact hx
    have hy' : (x :: f :: st).getD (-(b - 2) - 1).toNat .nil = y := by
      rw [show (-(b - 2) - 1).toNat = (-b - 1).toNat + 1 + 1 by omega]
      exact hy
    refine ends_silent (push_eq _ f) (ends_silent (lua_pushvalue_eq _ (a - 1)) ?_)
    dsimp only
    rw [hx']
    refine ends_silent (lua_pushvalue_eq _ (b - 2)) ?_
    dsimp only
    rw [hy']
    refine (lua_call_ends hSx hSy).bind ?_
    rintro _ _ ⟨rest', v, rfl, hanswer⟩
    exact ends_silent (index2adr_eq _ (-1)) (ends_silent (lua_pop_eq _ 1) (ends_pure ⟨⟨rest', rfl⟩, hanswer⟩))

/-! ## The inner loops -/

/-- The search upwards. Where the comparator is consistent, it does not get beyond an `m` where an
element is not less than the pivot. -/
theorem scanUp_ends (hk : u + 1 - i < k) (hi : 0 ≤ i) (hiu : i ≤ u) (hun : u ≤ n)
    (hS : ∀ j, i < j → j ≤ u → J.S (t j)) (hP : J.S P)
    (hm : J.consistent → i < m ∧ m ≤ u ∧ J.Le P (t m)) :
    J.Runs n top
      (fun i' s' => (∃ rest', s' = ⟨rest', t, t i' :: P :: st⟩) ∧ i < i' ∧ i' ≤ u ∧
        (J.consistent → i' ≤ m) ∧ (∀ j, i < j → j < i' → J.Le (t j) P) ∧ J.Le P (t i'))
      (scanUp host comparator u k i ⟨rest, t, P :: st⟩) := by
  induction k generalizing i rest with
  | zero => omega
  | succ k ih =>
    have hSi : J.S (t (i + 1)) := by
      by_cases hc : J.consistent
      · obtain ⟨h1, h2, -⟩ := hm hc
        exact hS (i + 1) (by omega) (by omega)
      · exact J.mem_of_not hc _
    rw [scanUp]
    refine ends_event (lua_rawgeti_eq _ (i + 1)) ?_ fun _ => ?_
    · intro hc
      obtain ⟨h1, h2, -⟩ := hm hc
      omega
    refine (sort_comp_ends (by decide) (by decide) rfl rfl hSi hP).bind ?_
    rintro less _ ⟨⟨rest', rfl⟩, hless⟩
    cases less with
    | false =>
      refine ends_event rfl trivial fun hA => ends_pure ⟨⟨rest', rfl⟩, by omega, ?_, ?_, ?_, hless⟩
      · by_cases hc : J.consistent
        · obtain ⟨h1, h2, -⟩ := hm hc
          omega
        · exact hA hc
      · intro hc
        obtain ⟨h1, h2, -⟩ := hm hc
        omega
      · intro j h1 h2
        omega
    | true =>
      obtain ⟨hle, hstrict⟩ := hless
      have hm' : J.consistent → i + 1 < m ∧ m ≤ u ∧ J.Le P (t m) := by
        intro hc
        obtain ⟨h1, h2, h3⟩ := hm hc
        refine ⟨?_, h2, h3⟩
        by_contra hge
        obtain rfl : m = i + 1 := by omega
        exact hstrict hc h3
      rw [if_pos rfl]
      split_ifs with hgt
      · refine ends_fail ⟨fun hc => ?_, trivial⟩
        obtain ⟨h1, h2, -⟩ := hm' hc
        omega
      · refine ends_silent (lua_pop_eq _ 1) ?_
        refine (ih (by omega) (by omega) (by omega) (fun j h1 h2 => hS j (by omega) h2) hm').imp ?_
        rintro i' s' ⟨hs', h1, h2, h3, h4, h5⟩
        refine ⟨hs', by omega, h2, h3, fun j hj1 hj2 => ?_, h5⟩
        by_cases hj : j = i + 1
        · rw [hj]
          exact hle
        · exact h4 j (by omega) hj2

/-- The search downwards: it does not get beyond an `m` where an element is not greater. -/
theorem scanDown_ends {x : TValue} (hk : j - l + 1 < k) (hlj : l ≤ j) (hjn : j ≤ n + 1)
    (hS : ∀ i, l ≤ i → i < j → J.S (t i)) (hP : J.S P)
    (hm : J.consistent → 1 ≤ m ∧ l ≤ m ∧ m < j ∧ J.Le (t m) P) :
    J.Runs n top
      (fun j' s' => (∃ rest', s' = ⟨rest', t, t j' :: x :: P :: st⟩) ∧ j' < j ∧ l - 1 ≤ j' ∧
        (∀ i, j' < i → i < j → J.Le P (t i)) ∧ J.Le (t j') P)
      (scanDown host comparator l k j ⟨rest, t, x :: P :: st⟩) := by
  induction k generalizing j rest with
  | zero => omega
  | succ k ih =>
    have hSj : J.S (t (j - 1)) := by
      by_cases hc : J.consistent
      · obtain ⟨-, h1, h2, -⟩ := hm hc
        exact hS (j - 1) (by omega) (by omega)
      · exact J.mem_of_not hc _
    rw [scanDown]
    refine ends_event (lua_rawgeti_eq _ (j - 1)) ?_ fun _ => ?_
    · intro hc
      obtain ⟨h0, h1, h2, -⟩ := hm hc
      omega
    refine (sort_comp_ends (by decide) (by decide) rfl rfl hP hSj).bind ?_
    rintro less _ ⟨⟨rest', rfl⟩, hless⟩
    cases less with
    | false =>
      refine ends_pure ⟨⟨rest', rfl⟩, by omega, by omega, ?_, hless⟩
      intro i h1 h2
      omega
    | true =>
      obtain ⟨hle, hstrict⟩ := hless
      have hm' : J.consistent → 1 ≤ m ∧ l ≤ m ∧ m < j - 1 ∧ J.Le (t m) P := by
        intro hc
        obtain ⟨h0, h1, h2, h3⟩ := hm hc
        refine ⟨h0, h1, ?_, h3⟩
        by_contra hge
        obtain rfl : m = j - 1 := by omega
        exact hstrict hc h3
      rw [if_pos rfl]
      split_ifs with hlt
      · refine ends_fail ⟨fun hc => ?_, trivial⟩
        obtain ⟨-, h1, h2, -⟩ := hm' hc
        omega
      · refine ends_silent (lua_pop_eq _ 1) ?_
        refine (ih (by omega) (by omega) (by omega) (fun i h1 h2 => hS i h1 (by omega)) hm').imp ?_
        rintro j' s' ⟨hs', h1, h2, h3, h4⟩
        refine ⟨hs', by omega, h2, fun i hi1 hi2 => ?_, h4⟩
        by_cases hi : i = j - 1
        · rw [hi]
          exact hle
        · exact h3 i hi1 (by omega)

/-- What the partition has reached at `i` and `j`. -/
structure Parted (Le : TValue → TValue → Prop) (P : TValue) (l u i j : Int) (t : Int → TValue) :
    Prop where
  pivot : t (u - 1) = P
  below : ∀ k, l ≤ k → k ≤ i → Le (t k) P
  above : ∀ k, j ≤ k → k ≤ u → Le P (t k)

/-- Two elements exchanged. -/
def swapped (t : Int → TValue) (i j : Int) : Int → TValue :=
  Function.update (Function.update t i (t j)) j (t i)

theorem swapped_apply (t : Int → TValue) (i j k : Int) :
    swapped t i j k = if k = j then t i else if k = i then t j else t k := by
  rw [swapped, Function.update_apply, Function.update_apply]

theorem writes_allowed {A : Event → Prop} {c : Prop} (hi : 1 ≤ i ∧ i ≤ n) (hj : 1 ≤ j ∧ j ≤ n) :
    (∀ e ∈ [Event.write i, .write j], A e) →
      ∀ e ∈ [Event.write i, .write j], e.Allowed c n top := by
  intro _ e he
  rcases List.mem_cons.mp he with rfl | he
  · exact hi
  · rw [List.mem_singleton.mp he]
    exact hj

theorem partitionLoop_ends (hl : 1 ≤ l) (hun : u ≤ n) (hfuel : n + 2 < fuel) (hk : j - i < k)
    (hli : l ≤ i) (hij : i ≤ j) (hlj : l < j) (hiu : i < u - 1) (hju : j ≤ u - 1)
    (hS : ∀ m, l ≤ m → m ≤ u → J.S (t m)) (h : Parted J.Le P l u i j t) :
    J.Runs n top
      (fun i' s' => ∃ rest' t', s' = ⟨rest', t', st⟩ ∧ Rearranged l u t t' ∧ l < i' ∧ i' ≤ u ∧
        (J.consistent → i' ≤ u - 1) ∧ Parted J.Le P l u (i' - 1) i' t')
      (partitionLoop host comparator fuel l u k i j ⟨rest, t, P :: st⟩) := by
  induction k generalizing i j rest t with
  | zero => omega
  | succ k ih =>
    have hP : J.S P := h.pivot ▸ hS (u - 1) (by omega) (by omega)
    have hup : J.consistent → i < u - 1 ∧ u - 1 ≤ u ∧ J.Le P (t (u - 1)) := fun _ =>
      ⟨hiu, by omega, h.pivot.symm ▸ J.refl P hP⟩
    have hdown : J.consistent → 1 ≤ l ∧ l ≤ l ∧ l < j ∧ J.Le (t l) P := fun _ =>
      ⟨hl, Int.le_refl l, hlj, h.below l (Int.le_refl l) hli⟩
    rw [partitionLoop]
    refine (scanUp_ends (by omega) (by omega) (by omega) hun (fun m h1 h2 => hS m (by omega) h2)
      hP hup).bind ?_
    rintro i' _ ⟨⟨rest', rfl⟩, hi', hiu', hpivot', hbelow, hlei⟩
    refine (scanDown_ends (by omega) (by omega) (by omega) (fun m h1 h2 => hS m h1 (by omega)) hP
      hdown).bind ?_
    rintro j' _ ⟨⟨rest'', rfl⟩, hj', hjl', habove, hlej⟩
    split_ifs with hcross
    · refine ends_silent (lua_pop_eq _ 3) (ends_pure ⟨rest'', t, rfl, .refl t, by omega, hiu', hpivot',
        h.pivot, fun m h1 h2 => ?_, fun m h1 h2 => ?_⟩)
      · by_cases hm : m ≤ i
        · exact h.below m h1 hm
        · exact hbelow m (by omega) (by omega)
      · by_cases hm : j ≤ m
        · exact h.above m hm h2
        · exact habove m (by omega) (by omega)
    · refine ends_step (set2_eq i' j' (t i') (t j') rest'' t (P :: st)) ?_ fun _ => ?_
      · exact writes_allowed ⟨by omega, by omega⟩ ⟨by omega, by omega⟩
      have hswap : Rearranged l u t (swapped t i' j') :=
        rearranged_swap ⟨by omega, by omega⟩ ⟨by omega, by omega⟩ t
      have hparted : Parted J.Le P l u i' j' (swapped t i' j') := by
        refine ⟨?_, fun m h1 h2 => ?_, fun m h1 h2 => ?_⟩
        · rw [swapped_apply, if_neg (by omega), if_neg (by omega), h.pivot]
        · rw [swapped_apply]
          split_ifs with hm hm'
          · rwa [show i' = j' by omega]
          · exact hlej
          · by_cases hmi : m ≤ i
            · exact h.below m h1 hmi
            · exact hbelow m (by omega) (by omega)
        · rw [swapped_apply]
          split_ifs with hm hm'
          · exact hlei
          · rwa [show j' = i' by omega]
          · by_cases hmj : j ≤ m
            · exact h.above m hmj h2
            · exact habove m (by omega) (by omega)
      refine (ih (by omega) (by omega) (by omega) (by omega) (by omega) (by omega)
        (hswap.forall_mem hS) hparted).imp ?_
      rintro r s' ⟨rest₁, t₁, hs', ht₁, hr⟩
      exact ⟨rest₁, t₁, hs', hswap.trans ht₁, hr⟩

/-! ## The parts of `auxsort` -/

theorem sortEnds_ends (hl : 1 ≤ l) (hlu : l < u) (hun : u ≤ n)
    (hS : ∀ k, l ≤ k → k ≤ u → J.S (t k)) :
    J.Runs n top
      (fun _ s' => ∃ rest' t', s' = ⟨rest', t', st⟩ ∧ Rearranged l u t t' ∧ J.Le (t' l) (t' u))
      (sortEnds host comparator l u ⟨rest, t, st⟩) := by
  rw [sortEnds]
  refine ends_event (lua_rawgeti_eq _ l) (fun _ => ⟨hl, by omega⟩) fun _ => ?_
  refine ends_event (lua_rawgeti_eq _ u) (fun _ => ⟨by omega, hun⟩) fun _ => ?_
  refine (sort_comp_ends (by decide) (by decide) rfl rfl (hS u (by omega) (Int.le_refl u))
    (hS l (Int.le_refl l) (by omega))).bind ?_
  rintro less _ ⟨⟨rest', rfl⟩, hless⟩
  cases less with
  | false =>
    exact fun hA => ⟨fun _ he => absurd he List.not_mem_nil, rest', t, rfl, .refl t, hless⟩
  | true =>
    refine fun hA => ⟨writes_allowed ⟨hl, by omega⟩ ⟨by omega, hun⟩ hA, rest', swapped t l u, rfl,
      rearranged_swap ⟨Int.le_refl l, by omega⟩ ⟨by omega, Int.le_refl u⟩ t, ?_⟩
    rw [swapped_apply, swapped_apply, if_neg (by omega), if_pos rfl, if_pos rfl]
    exact hless.1

theorem sortMiddle_ends (hl : 1 ≤ l) (hli : l < i) (hiu : i < u) (hun : u ≤ n)
    (hS : ∀ k, l ≤ k → k ≤ u → J.S (t k)) (hle : J.Le (t l) (t u)) :
    J.Runs n top
      (fun _ s' => ∃ rest' t', s' = ⟨rest', t', st⟩ ∧ Rearranged l u t t' ∧ J.Le (t' l) (t' i) ∧
        J.Le (t' i) (t' u))
      (sortMiddle host comparator l i u ⟨rest, t, st⟩) := by
  have hSl := hS l (Int.le_refl l) (by omega)
  have hSi := hS i (by omega) (by omega)
  have hSu := hS u (by omega) (Int.le_refl u)
  rw [sortMiddle]
  refine ends_event (lua_rawgeti_eq _ i) (fun _ => ⟨by omega, by omega⟩) fun _ => ?_
  refine ends_event (lua_rawgeti_eq _ l) (fun _ => ⟨hl, by omega⟩) fun _ => ?_
  refine (sort_comp_ends (by decide) (by decide) rfl rfl hSi hSl).bind ?_
  rintro less _ ⟨⟨rest', rfl⟩, hless⟩
  cases less with
  | true =>
    refine fun hA => ⟨writes_allowed ⟨by omega, by omega⟩ ⟨hl, by omega⟩ hA, rest', swapped t i l, rfl,
      rearranged_swap ⟨by omega, by omega⟩ ⟨Int.le_refl l, by omega⟩ t, ?_, ?_⟩
    · rw [swapped_apply, swapped_apply, if_pos rfl, if_neg (by omega), if_pos rfl]
      exact hless.1
    · rw [swapped_apply, swapped_apply, if_neg (by omega), if_pos rfl, if_neg (by omega),
        if_neg (by omega)]
      exact hle
  | false =>
    refine ends_silent (lua_pop_eq _ 1) ?_
    refine ends_event (lua_rawgeti_eq _ u) (fun _ => ⟨by omega, hun⟩) fun _ => ?_
    refine (sort_comp_ends (by decide) (by decide) rfl rfl hSu hSi).bind ?_
    rintro less _ ⟨⟨rest'', rfl⟩, hless'⟩
    cases less with
    | false =>
      exact fun hA => ⟨fun _ he => absurd he List.not_mem_nil, rest'', t, rfl, .refl t, hless, hless'⟩
    | true =>
      refine fun hA => ⟨writes_allowed ⟨by omega, by omega⟩ ⟨by omega, hun⟩ hA, rest'', swapped t i u,
        rfl, rearranged_swap ⟨by omega, by omega⟩ ⟨by omega, Int.le_refl u⟩ t, ?_, ?_⟩
      · rw [swapped_apply, swapped_apply, if_neg (by omega), if_neg (by omega), if_neg (by omega),
          if_pos rfl]
        exact hle
      · rw [swapped_apply, swapped_apply, if_neg (by omega), if_pos rfl, if_pos rfl]
        exact hless'.1

theorem partition_ends (hl : 1 ≤ l) (hli : l < i) (hiu : i < u - 1) (hun : u ≤ n)
    (hfuel : n + 2 < fuel) (hS : ∀ k, l ≤ k → k ≤ u → J.S (t k)) (h1 : J.Le (t l) (t i))
    (h2 : J.Le (t i) (t u)) :
    J.Runs n top
      (fun i' s' => ∃ rest' t', s' = ⟨rest', t', st⟩ ∧ Rearranged l u t t' ∧ l < i' ∧ i' ≤ u ∧
        (∀ k, l ≤ k → k < i' → J.Le (t' k) (t' i')) ∧ ∀ k, i' < k → k ≤ u → J.Le (t' i') (t' k))
      (partition host comparator fuel l i u ⟨rest, t, st⟩) := by
  rw [partition]
  refine ends_event (lua_rawgeti_eq _ i) (fun _ => ⟨by omega, by omega⟩) fun _ => ?_
  refine ends_silent (lua_pushvalue_eq _ (-1)) ?_
  refine ends_event (lua_rawgeti_eq _ (u - 1)) (fun _ => ⟨by omega, by omega⟩) fun _ => ?_
  refine ends_step (set2_eq i (u - 1) (t i) (t (u - 1)) rest t (t i :: st))
    (writes_allowed ⟨by omega, by omega⟩ ⟨by omega, by omega⟩) fun _ => ?_
  have hswap : Rearranged l u t (swapped t i (u - 1)) :=
    rearranged_swap ⟨by omega, by omega⟩ ⟨by omega, by omega⟩ t
  have hparted : Parted J.Le (t i) l u l (u - 1) (swapped t i (u - 1)) := by
    refine ⟨?_, fun k hk1 hk2 => ?_, fun k hk1 hk2 => ?_⟩
    · rw [swapped_apply, if_pos rfl]
    · obtain rfl : k = l := by omega
      rw [swapped_apply, if_neg (by omega), if_neg (by omega)]
      exact h1
    · rw [swapped_apply]
      split_ifs with hk hk'
      · exact J.refl _ (hS i (by omega) (by omega))
      · omega
      · rwa [show k = u by omega]
  refine (partitionLoop_ends hl hun hfuel (by omega) (Int.le_refl l) (by omega) (by omega) (by omega)
    (Int.le_refl _) (hswap.forall_mem hS) hparted).bind ?_
  rintro r _ ⟨rest', t', rfl, ht', hlr, hru, hinside, hpivot, hbelow, habove⟩
  refine ends_event (lua_rawgeti_eq _ (u - 1)) (fun _ => ⟨by omega, by omega⟩) fun _ => ?_
  refine ends_event (lua_rawgeti_eq _ r) (fun _ => ⟨by omega, by omega⟩) fun _ => ?_
  refine ends_step (set2_eq (u - 1) r (t' (u - 1)) (t' r) rest' t' st)
    (writes_allowed ⟨by omega, by omega⟩ ⟨by omega, by omega⟩) fun _ => ?_
  have hswap' : Rearranged l u t' (swapped t' (u - 1) r) :=
    rearranged_swap ⟨by omega, by omega⟩ ⟨by omega, by omega⟩ t'
  refine ends_pure ⟨rest', swapped t' (u - 1) r, rfl, (hswap.trans ht').trans hswap', hlr, hru, ?_, ?_⟩
  · intro k hk1 hk2
    by_cases hc : J.consistent
    · have hr := hinside hc
      rw [swapped_apply, swapped_apply, if_pos rfl, if_neg (by omega), if_neg (by omega), hpivot]
      exact hbelow k hk1 (by omega)
    · exact J.le_of_not hc _ _
  · intro k hk1 hk2
    rw [swapped_apply, swapped_apply, if_pos rfl, if_neg (by omega), hpivot]
    split_ifs with hk
    · exact habove r (Int.le_refl r) hru
    · exact habove k (by omega) hk2

/-! ## The recursion -/

/-- A call sorts every segment of fewer than `size` elements. -/
def Sorts (J : Judge host comparator) (n : Int) (size : Nat) (f : Int → Int → M σ ε Unit) : Prop :=
  ∀ (l u : Int) (rest : σ) (t : Int → TValue) (st : List TValue), 1 ≤ l → u ≤ n → l ≤ u + 1 →
    u - l + 1 < size → (∀ k, l ≤ k → k ≤ u → J.S (t k)) →
    J.Runs n st.length
      (fun _ s' => ∃ rest' t', s' = ⟨rest', t', st⟩ ∧ Rearranged l u t t' ∧ Ascending J.Le l u t')
      (f l u ⟨rest, t, st⟩)

/-- The middle of a segment, without overflow. -/
theorem middle_eq (h1 : 1 ≤ l) (h2 : l < u) (h3 : u ≤ 2 ^ 30) :
    (wrap (l + u)).tdiv 2 = (l + u) / 2 := by
  rw [wrap_eq (by omega) (by omega), Int.tdiv_eq_ediv_of_nonneg (by omega)]

theorem auxsortLoop_ends {f : Int → Int → M σ ε Unit} {size : Nat}
    (hf : Sorts J n size f) (hn : n ≤ 2 ^ 30) (hfuel : n + 2 < fuel) (hl : 1 ≤ l) (hun : u ≤ n)
    (hk : u - l + 1 < k) (hlu : l ≤ u + 1) (hlen : u - l + 1 < 2 * size)
    (hS : ∀ k, l ≤ k → k ≤ u → J.S (t k)) :
    J.Runs n st.length
      (fun _ s' => ∃ rest' t', s' = ⟨rest', t', st⟩ ∧ Rearranged l u t t' ∧ Ascending J.Le l u t')
      (auxsortLoop host comparator fuel f k l u ⟨rest, t, st⟩) := by
  induction k generalizing l u rest t with
  | zero => omega
  | succ k ih =>
    rw [auxsortLoop]
    by_cases hlt : l < u
    swap
    · rw [if_neg hlt]
      exact ends_pure ⟨rest, t, rfl, .refl t, ascending_of_le (by omega)⟩
    rw [if_pos hlt]
    refine (sortEnds_ends hl hlt hun hS).bind ?_
    rintro ⟨⟩ _ ⟨rest₁, t₁, rfl, hr₁, hle₁⟩
    have hS₁ := hr₁.forall_mem hS
    by_cases htwo : u - l = 1
    · rw [if_pos htwo]
      refine ends_pure ⟨rest₁, t₁, rfl, hr₁, fun a b ha hab hb => ?_⟩
      obtain rfl : a = l := by omega
      obtain rfl : b = u := by omega
      exact hle₁
    rw [if_neg htwo, middle_eq hl hlt (by omega)]
    refine (sortMiddle_ends hl (by omega) (by omega) hun hS₁ hle₁).bind ?_
    rintro ⟨⟩ _ ⟨rest₂, t₂, rfl, hr₂, hle₂, hle₂'⟩
    have hS₂ := hr₂.forall_mem hS₁
    by_cases hthree : u - l = 2
    · rw [if_pos hthree]
      refine ends_pure ⟨rest₂, t₂, rfl, hr₁.trans hr₂, ?_⟩
      have hmiddle : (l + u) / 2 = l + 1 := by omega
      rw [hmiddle] at hle₂ hle₂'
      refine .join (i := l + 1) J.trans hS₂ (ascending_of_le (by omega)) (ascending_of_le (by omega))
        (by omega) (by omega) (fun k h1 h2 => ?_) fun k h1 h2 => ?_
      · obtain rfl : k = l := by omega
        exact hle₂
      · obtain rfl : k = u := by omega
        exact hle₂'
    rw [if_neg hthree]
    refine (partition_ends hl (by omega) (by omega) hun hfuel hS₂ hle₂ hle₂').bind ?_
    rintro i _ ⟨rest₃, t₃, rfl, hr₃, hli, hiu, hbelow, habove⟩
    have hS₃ := hr₃.forall_mem hS₂
    have hr : Rearranged l u t t₃ := (hr₁.trans hr₂).trans hr₃
    by_cases hsmall : i - l < u - i
    · rw [if_pos hsmall]
      refine (hf l (i - 1) rest₃ t₃ st hl (by omega) (by omega) (by omega)
        fun k h1 h2 => hS₃ k h1 (by omega)).bind ?_
      rintro ⟨⟩ _ ⟨rest₄, t₄, rfl, hr₄, hasc₄⟩
      have hr₄' : Rearranged l u t₃ t₄ := hr₄.mono (Int.le_refl l) (by omega)
      refine (ih (by omega) hun (by omega) (by omega) (by omega)
        fun k h1 h2 => hr₄'.forall_mem hS₃ k (by omega) h2).imp ?_
      rintro ⟨⟩ _ ⟨rest₅, t₅, rfl, hr₅, hasc₅⟩
      have hlow : ∀ k, l ≤ k → k ≤ i - 1 → t₅ k = t₄ k := fun k _ h => hr₅.outside (by omega)
      have hhigh : ∀ k, i + 1 ≤ k → k ≤ u → t₄ k = t₃ k := fun k h _ => hr₄.outside (by omega)
      refine ⟨rest₅, t₅, rfl, (hr.trans hr₄').trans (hr₅.mono (by omega) (Int.le_refl u)), ?_⟩
      refine .partition J.trans hS₃ hli.le hiu hbelow habove
        (hr₄.preserved.trans (preserved_of_eq hlow)) ((preserved_of_eq hhigh).trans hr₅.preserved) ?_
        (hasc₄.congr hlow) hasc₅
      rw [hr₅.outside (by omega), hr₄.outside (by omega)]
    · rw [if_neg hsmall]
      refine (hf (i + 1) u rest₃ t₃ st (by omega) hun (by omega) (by omega)
        fun k h1 h2 => hS₃ k (by omega) h2).bind ?_
      rintro ⟨⟩ _ ⟨rest₄, t₄, rfl, hr₄, hasc₄⟩
      have hr₄' : Rearranged l u t₃ t₄ := hr₄.mono (by omega) (Int.le_refl u)
      refine (ih hl (by omega) (by omega) (by omega) (by omega)
        fun k h1 h2 => hr₄'.forall_mem hS₃ k h1 (by omega)).imp ?_
      rintro ⟨⟩ _ ⟨rest₅, t₅, rfl, hr₅, hasc₅⟩
      have hlow : ∀ k, l ≤ k → k ≤ i - 1 → t₄ k = t₃ k := fun k _ h => hr₄.outside (by omega)
      have hhigh : ∀ k, i + 1 ≤ k → k ≤ u → t₅ k = t₄ k := fun k h _ => hr₅.outside (by omega)
      refine ⟨rest₅, t₅, rfl, (hr.trans hr₄').trans (hr₅.mono (Int.le_refl l) (by omega)), ?_⟩
      refine .partition J.trans hS₃ hli.le hiu hbelow habove
        ((preserved_of_eq hlow).trans hr₅.preserved) (hr₄.preserved.trans (preserved_of_eq hhigh)) ?_
        hasc₅ (hasc₄.congr hhigh)
      rw [hr₅.outside (by omega), hr₄.outside (by omega)]

theorem auxsort_of_loop {levels : Nat} {Q : (Int → TValue) → Prop}
    (h : J.Runs n st.length (fun _ s' => ∃ rest' t', s' = ⟨rest', t', st⟩ ∧ Q t')
      (auxsortLoop host comparator fuel (auxsort host comparator fuel levels) fuel l u ⟨rest, t, st⟩)) :
    J.Runs n st.length (fun _ s' => ∃ rest' t', s' = ⟨rest', t', st⟩ ∧ Q t')
      (auxsort host comparator fuel (levels + 1) l u ⟨rest, t, st⟩) := by
  rw [auxsort]
  refine ends_silent rfl (ends_event rfl rfl fun _ => ?_)
  refine h.bind ?_
  rintro ⟨⟩ _ ⟨rest', t', rfl, hQ⟩
  exact ends_silent rfl fun hA => ⟨fun e he => List.mem_singleton.mp he ▸ rfl, rest', t', rfl, hQ⟩

/-- A call for the smaller side has half of the elements at most. -/
theorem auxsort_ends (hn : n ≤ 2 ^ 30) (hfuel : n + 2 < fuel) (levels : Nat) :
    Sorts J n (2 ^ (levels + 1)) (auxsort host comparator fuel (levels + 1)) := by
  induction levels with
  | zero =>
    intro l u rest t st hl hun hlu hlen hS
    refine auxsort_of_loop ?_
    obtain ⟨k, rfl⟩ : ∃ k, fuel = k + 1 := ⟨fuel - 1, by omega⟩
    rw [auxsortLoop, if_neg (by omega)]
    exact ends_pure ⟨rest, t, rfl, .refl t, ascending_of_le (by omega)⟩
  | succ levels ih =>
    intro l u rest t st hl hun hlu hlen hS
    refine auxsort_of_loop ?_
    rw [pow_succ, Nat.mul_comm, Nat.cast_mul] at hlen
    exact auxsortLoop_ends ih hn hfuel hl hun (by omega) hlu hlen hS

end Luaxx.Tablib
