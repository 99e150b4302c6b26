import Luaxx.Tablib.Quicksort
import Mathlib.Order.Defs.Unbundled
import Mathlib.Data.Nat.Log

/-!
# What `table.sort` guarantees

Of a table with a consistent comparator, and of one with a comparator that answers in any way.
-/

namespace Luaxx.Tablib

open Luaxx.Segments Luaxx.Tracing Luaxx.Vm

variable {σ ε : Type} {host : Host σ ε} {comparator : Comparator σ ε}

theorem sort_ends (J : Judge host comparator) {n levels fuel : Nat} (hn : n ≤ 2 ^ 30)
    (hlevels : Nat.log 2 n < levels) (hfuel : n + 2 < fuel) (s : State σ)
    (hS : ∀ v ∈ elements n s.t, J.S v) :
    J.Runs n s.stack.length
      (fun _ s' => ∃ rest' t', s' = ⟨rest', t', s.stack⟩ ∧ Rearranged 1 n s.t t' ∧
        Ascending J.Le 1 n t')
      (sort host comparator fuel levels n s) := by
  obtain ⟨k, rfl⟩ : ∃ k, levels = k + 1 := ⟨levels - 1, by omega⟩
  have hlt : n < 2 ^ (k + 1) :=
    (Nat.lt_pow_succ_log_self Nat.one_lt_two n).trans_le (Nat.pow_le_pow_right Nat.two_pos hlevels)
  exact auxsort_ends (by omega) (by omega) k 1 n s.rest s.t s.stack (Int.le_refl 1) (Int.le_refl _)
    (by omega) (by omega) fun i h1 h2 => hS _ (mem_elements.mpr ⟨i, h1, h2, rfl⟩)

/-! ## Any comparator -/

variable (host comparator) in
/-- Nothing is known of the comparator. -/
def anyJudge : Judge host comparator where
  consistent := False
  S _ := True
  Le _ _ := True
  refl _ _ := trivial
  trans _ _ _ _ _ _ _ _ := trivial
  mem_of_not _ _ := trivial
  le_of_not _ _ _ := trivial
  answer a b rest _ _ := by
    rcases (ask host comparator a b).run rest with ⟨e | less, rest'⟩
    · exact id
    · cases less with
      | true => exact ⟨trivial, False.elim⟩
      | false => exact trivial

/-- Where no search upwards ends behind its segment, `sort` stays inside the array, and it raises an
error or permutes the array. -/
theorem sort_contained {n levels fuel : Nat} (hn : n ≤ 2 ^ 30) (hlevels : Nat.log 2 n < levels)
    (hfuel : n + 2 < fuel) (s : State σ)
    (hstopped : ∀ i u : Int, .stopped i u ∈ (sort host comparator fuel levels n s).events → i ≤ u) :
    (∀ i : Int, .write i ∈ (sort host comparator fuel levels n s).events → 1 ≤ i ∧ i ≤ n) ∧
      (((sort host comparator fuel levels n s).result = .ok () ∧
          (elements n (sort host comparator fuel levels n s).state.t).Perm (elements n s.t)) ∨
        ∃ e, (sort host comparator fuel levels n s).result = .error e ∧ e.Raised) := by
  have hassumed : ∀ e ∈ (sort host comparator fuel levels n s).events,
      e.Assumed (anyJudge host comparator).consistent := by
    intro e he
    cases e with
    | stopped i u => exact fun _ => hstopped i u he
    | _ => exact trivial
  obtain ⟨hallowed, hresult⟩ :=
    sort_ends (anyJudge host comparator) hn hlevels hfuel s (fun _ _ => trivial) hassumed
  refine ⟨fun i hi => hallowed _ hi, ?_⟩
  cases hr : (sort host comparator fuel levels n s).result with
  | ok _ =>
    rw [hr] at hresult
    obtain ⟨rest', t', hs', hperm, -⟩ := hresult
    rw [hs']
    exact .inl ⟨rfl, hperm.perm⟩
  | error e =>
    rw [hr] at hresult
    exact .inr ⟨e, rfl, hresult.2⟩

/-- A table with these elements. -/
def tableOf (vs : List TValue) : Int → TValue := fun i => if i < 1 then .nil else vs.getD (i - 1).toNat .nil

/-- `function () return false end` -/
def neverLess : Comparator Unit String := .function .nil fun _ _ => pure (.boolean false)

/-- `function (a, b) return a and b and a <= b end`, for numbers. -/
def notGreater : Comparator Unit String := .function .nil fun a b =>
  match a, b with
  | .number x, .number y => pure (.boolean (luai_numle x y))
  | _, _ => pure .nil

def sortFour (comparator : Comparator Unit String) (v : TValue) :
    Outcome (Stop String) Event (State Unit) Unit :=
  sort plainHost comparator 7 3 4 ⟨(), tableOf [v, v, v, v], []⟩

/-- No search upwards ends behind its segment here. -/
def Event.inside : Event → Bool
  | .stopped i u => i ≤ u
  | _ => true

theorem sort_contained_neverLess :
    (∀ i : Int, .write i ∈ (sortFour neverLess (.number 0)).events → 1 ≤ i ∧ i ≤ (4 : Nat)) ∧
      (((sortFour neverLess (.number 0)).result = .ok () ∧
          (elements 4 (sortFour neverLess (.number 0)).state.t).Perm
            (elements 4 (tableOf [.number 0, .number 0, .number 0, .number 0]))) ∨
        ∃ e, (sortFour neverLess (.number 0)).result = .error e ∧ e.Raised) := by
  have hinside : ∀ e ∈ (sortFour neverLess (.number 0)).events, e.inside = true := by
    decide +kernel
  refine sort_contained (by decide) (by decide) (by decide) _ fun i u he => ?_
  exact of_decide_eq_true (hinside _ he)

/-- The search upwards ends behind the array, and its element is written there. -/
theorem sort_writes_outside :
    .write 5 ∈ (sortFour notGreater (.number 0)).events ∧ ¬ ((1 : Int) ≤ 5 ∧ (5 : Int) ≤ (4 : Nat)) := by
  decide +kernel

/-! ## A consistent comparator -/

/-- The default order of numbers and of strings. -/
def defaultLess : TValue → TValue → Prop
  | .number a, .number b => luai_numlt a b = true
  | .string a, .string b => a < b
  | _, _ => False

/-- The comparator answers by a strict weak order on the values, or it is the default one and they
are all numbers but no NaNs, or all strings. -/
inductive Sortable (host : Host σ ε) (xs : List TValue) :
    Comparator σ ε → (TValue → TValue → Prop) → Prop
  | function (f : TValue) {call : TValue → TValue → LuaM σ ε TValue} {lt : TValue → TValue → Prop}
      (hlt : IsStrictWeakOrder {v // v ∈ xs} fun a b => lt a.1 b.1)
      (hcall : ∀ a ∈ xs, ∀ b ∈ xs, ∀ rest, ∃ v rest', (call a b).run rest = (.ok v, rest') ∧
        (v.l_isfalse = false ↔ lt a b)) : Sortable host xs (.function f call) lt
  | numbers (h : ∀ v ∈ xs, ∃ a : Number, v = .number a ∧ a.isNaN = false) :
      Sortable host xs .nil defaultLess
  | strings (hcoll : Bytewise host.strcoll) (h : ∀ v ∈ xs, ∃ a, v = .string a) :
      Sortable host xs .nil defaultLess

/-- The place of a number in the order: both zeros are in one. -/
def rank (a : Number) : Int := if a.negative then 2 ^ 63 - a.toNat else a.toNat

def valueRank : TValue → Int
  | .number a => rank a
  | _ => 0

theorem luai_numlt_iff {a b : Number} (ha : a.isNaN = false) (hb : b.isNaN = false) :
    luai_numlt a b = true ↔ rank a < rank b := by
  have hlt := a.toNat_lt
  have hlt' := b.toNat_lt
  simp only [luai_numlt, ha, hb, rank, Number.isZero, Number.negative, Bool.not_false, Bool.true_and,
    Bool.and_eq_true, Bool.not_eq_true', Bool.and_eq_false_iff, beq_eq_false_iff_ne, ne_eq,
    decide_eq_true_eq]
  split_ifs with h1 h2
  · simp only [h2, decide_true, Bool.not_true, Bool.false_or, decide_eq_true_eq]
    omega
  · simp only [h2, decide_false, Bool.not_false, Bool.true_or, and_true]
    omega
  · simp only [Bool.and_eq_true, Bool.not_eq_true', decide_eq_false_iff_not, decide_eq_true_eq]
    omega
  · simp only [Bool.and_eq_true, Bool.not_eq_true', decide_eq_false_iff_not, decide_eq_true_eq]
    omega

theorem numbers_order {xs : List TValue} (h : ∀ v ∈ xs, ∃ a : Number, v = .number a ∧ a.isNaN = false) :
    IsStrictWeakOrder {v // v ∈ xs} fun a b => defaultLess a.1 b.1 := by
  have hnumber : ∃ f : {v // v ∈ xs} → Int, ∀ a b, defaultLess a.1 b.1 ↔ f a < f b := by
    refine ⟨fun a => valueRank a.1, ?_⟩
    rintro ⟨a, ha⟩ ⟨b, hb⟩
    obtain ⟨x, rfl, hx⟩ := h a ha
    obtain ⟨y, rfl, hy⟩ := h b hb
    exact luai_numlt_iff hx hy
  obtain ⟨f, hf⟩ := hnumber
  have hless : (fun a b : {v // v ∈ xs} => defaultLess a.1 b.1) = fun a b => f a < f b :=
    funext fun a => funext fun b => propext (hf a b)
  rw [hless]
  exact {
    irrefl := fun a => Int.lt_irrefl (f a)
    trans := fun a b c => Int.lt_trans
    incomp_trans := fun a b c hab hbc => by omega }

theorem strings_order {xs : List TValue} (h : ∀ v ∈ xs, ∃ a, v = .string a) :
    IsStrictWeakOrder {v // v ∈ xs} fun a b => defaultLess a.1 b.1 where
  irrefl := by
    rintro ⟨a, ha⟩
    obtain ⟨x, rfl⟩ := h a ha
    exact List.lt_irrefl x
  trans := by
    rintro ⟨a, ha⟩ ⟨b, hb⟩ ⟨c, hc⟩
    obtain ⟨x, rfl⟩ := h a ha
    obtain ⟨y, rfl⟩ := h b hb
    obtain ⟨z, rfl⟩ := h c hc
    exact List.lt_trans
  incomp_trans := by
    rintro ⟨a, ha⟩ ⟨b, hb⟩ ⟨c, hc⟩ hab hbc
    obtain ⟨x, rfl⟩ := h a ha
    obtain ⟨y, rfl⟩ := h b hb
    obtain ⟨z, rfl⟩ := h c hc
    -- strings that are not different in the order are equal
    have hxy : x = y := ((trichotomous x y).resolve_left hab.1).resolve_right hab.2
    exact hxy ▸ hbc

/-- What the comparator answers. -/
theorem Sortable.ask_eq {xs : List TValue} {lt : TValue → TValue → Prop}
    (h : Sortable host xs comparator lt) {a b : TValue} (ha : a ∈ xs) (hb : b ∈ xs) (rest : σ) :
    ∃ less rest', (ask host comparator a b).run rest = (.ok less, rest') ∧ (less = true ↔ lt a b) := by
  cases h with
  | function f _ hcall =>
    obtain ⟨v, rest', hrun, hv⟩ := hcall a ha b hb rest
    exact ⟨!v.l_isfalse, rest', run_bind_ok hrun, by rw [Bool.not_eq_true', hv]⟩
  | numbers h =>
    obtain ⟨x, rfl, -⟩ := h a ha
    obtain ⟨y, rfl, -⟩ := h b hb
    exact ⟨luai_numlt x y, rest, rfl, Iff.rfl⟩
  | strings hcoll h =>
    obtain ⟨x, rfl⟩ := h a ha
    obtain ⟨y, rfl⟩ := h b hb
    exact ⟨decide (l_strcmp host.strcoll x y < 0), rest, rfl,
      decide_eq_true_iff.trans (l_strcmp_spec hcoll x y).1⟩

theorem Sortable.order {xs : List TValue} {lt : TValue → TValue → Prop}
    (h : Sortable host xs comparator lt) : IsStrictWeakOrder {v // v ∈ xs} fun a b => lt a.1 b.1 := by
  cases h with
  | function f hlt _ => exact hlt
  | numbers h => exact numbers_order h
  | strings _ h => exact strings_order h

/-- A comparator that answers by a strict weak order. -/
def Sortable.judge {xs : List TValue} {lt : TValue → TValue → Prop}
    (h : Sortable host xs comparator lt) : Judge host comparator where
  consistent := True
  S := (· ∈ xs)
  Le a b := ¬ lt b a
  refl a ha := h.order.irrefl ⟨a, ha⟩
  trans a b c ha hb hc hab hbc hca := by
    have htrans := h.order.trans
    by_cases hba : lt a b
    · exact hbc (htrans ⟨c, hc⟩ ⟨a, ha⟩ ⟨b, hb⟩ hca hba)
    · by_cases hcb : lt b c
      · exact hab (htrans ⟨b, hb⟩ ⟨c, hc⟩ ⟨a, ha⟩ hcb hca)
      · exact (h.order.incomp_trans ⟨a, ha⟩ ⟨b, hb⟩ ⟨c, hc⟩ ⟨hba, hab⟩ ⟨hcb, hbc⟩).2 hca
  mem_of_not hc := absurd trivial hc
  le_of_not hc := absurd trivial hc
  answer a b rest ha hb := by
    obtain ⟨less, rest', hrun, hless⟩ := h.ask_eq ha hb rest
    rw [hrun]
    cases less with
    | true =>
      have hab : lt a b := hless.mp rfl
      refine ⟨fun hba => ?_, fun _ hnot => hnot hab⟩
      exact h.order.irrefl ⟨a, ha⟩ (h.order.trans ⟨a, ha⟩ ⟨b, hb⟩ ⟨a, ha⟩ hab hba)
    | false => exact fun hab => nomatch hless.mpr hab

/-- `sort` sorts: it returns a permutation in order, and on the way it stays inside the array and
calls itself in no more levels than the logarithm of the length, always with the same height of the
stack. -/
theorem sort_sorts {n levels fuel : Nat} {lt : TValue → TValue → Prop} (hn : n < 2 ^ 30)
    (hlevels : Nat.log 2 n < levels) (hfuel : n + 2 < fuel) (s : State σ)
    (h : Sortable host (elements n s.t) comparator lt) :
    ∃ s' events, sort host comparator fuel levels n s = ⟨.ok (), s', events⟩ ∧
      (elements n s'.t).Perm (elements n s.t) ∧
      (∀ i j : Int, 1 ≤ i → i < j → j ≤ n → ¬ lt (s'.t j) (s'.t i)) ∧
      (∀ i : Int, .read i ∈ events ∨ .write i ∈ events → 1 ≤ i ∧ i ≤ n) ∧
      s'.stack = s.stack ∧
      ∀ top, .call top ∈ events ∨ .leave top ∈ events → top = s.stack.length := by
  have hassumed : ∀ e ∈ (sort host comparator fuel levels n s).events,
      e.Assumed h.judge.consistent := by
    intro e _
    cases e with
    | stopped i u => exact fun hc => absurd trivial hc
    | _ => exact trivial
  obtain ⟨hallowed, hresult⟩ :=
    sort_ends h.judge (Nat.le_of_lt hn) hlevels hfuel s (fun _ hv => hv) hassumed
  rcases hsort : sort host comparator fuel levels n s with ⟨e | ⟨⟩, s', events⟩
  · rw [hsort] at hresult
    exact absurd trivial hresult.1
  · rw [hsort] at hresult hallowed
    obtain ⟨rest', t', rfl, hperm, hasc⟩ := hresult
    refine ⟨_, events, rfl, hperm.perm, hasc, fun i hi => ?_, rfl, fun top htop => ?_⟩
    · rcases hi with hi | hi
      · exact hallowed _ hi trivial
      · exact hallowed _ hi
    · rcases htop with htop | htop
      · exact hallowed _ htop
      · exact hallowed _ htop

/-- Four strings. -/
def words : List TValue := [.string [98], .string [], .string [97, 0], .string [97]]

theorem sort_sorts_words :
    ∃ s' events, sort plainHost .nil 7 3 4 ⟨(), tableOf words, []⟩ = ⟨.ok (), s', events⟩ ∧
      (elements 4 s'.t).Perm (elements 4 (tableOf words)) ∧
      (∀ i j : Int, 1 ≤ i → i < j → j ≤ (4 : Nat) → ¬ defaultLess (s'.t j) (s'.t i)) ∧
      (∀ i : Int, .read i ∈ events ∨ .write i ∈ events → 1 ≤ i ∧ i ≤ (4 : Nat)) ∧
      s'.stack = [] ∧ ∀ top, .call top ∈ events ∨ .leave top ∈ events → top = 0 := by
  refine sort_sorts (by decide) (by decide) (by decide) ⟨(), tableOf words, []⟩
    (.strings bytewise_strcmp fun v hv => ?_)
  have hwords : elements 4 (tableOf words) = words := rfl
  rw [hwords, words] at hv
  simp only [List.mem_cons, List.not_mem_nil, or_false] at hv
  rcases hv with rfl | rfl | rfl | rfl
  · exact ⟨_, rfl⟩
  · exact ⟨_, rfl⟩
  · exact ⟨_, rfl⟩
  · exact ⟨_, rfl⟩

/-- One, a NaN, two and one. -/
def notANumber : List TValue :=
  [.number (cast_num 1), .number 0x7ff8000000000000, .number (cast_num 2), .number (cast_num 1)]

/-- Numbers with a NaN among them are not sorted: two comes before one. -/
theorem sort_nan :
    (∀ v ∈ elements 4 (tableOf notANumber), v.ttisnumber = true) ∧
      (sort plainHost .nil 7 3 4 ⟨(), tableOf notANumber, []⟩).result = .ok () ∧
      (sort plainHost .nil 7 3 4 ⟨(), tableOf notANumber, []⟩).state.t 2 = .number (cast_num 2) ∧
      (sort plainHost .nil 7 3 4 ⟨(), tableOf notANumber, []⟩).state.t 4 = .number (cast_num 1) ∧
      luai_numlt (cast_num 1) (cast_num 2) = true := by
  decide +kernel

end Luaxx.Tablib
