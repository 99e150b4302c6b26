import Luaxx.Json.Strbuf

/-!
# What is written to a buffer

The size of a buffer starts at 1023 and doubles, and the last size below 2^31 is `limit`: a request
that needs more never returns. So what a sequence of writes does depends on the buffer only by how
much is in it, and the writes can be described without it (`Output`): the text, and the number of
bytes that have to fit.
-/

namespace Luaxx.Json

open Luaxx.Result Strbuf

/-- The largest size. -/
def limit : Nat := 1023 * 2 ^ 21

/-- The buffers that the library makes. -/
structure Strbuf.Valid (s : Strbuf) : Prop where
  increment : s.increment = STRBUF_DEFAULT_INCREMENT
  size : ∃ k, k ≤ 21 ∧ s.size = 1023 * 2 ^ k
  room : s.length < s.size

/-- Neither a result nor an error that Lua sees. -/
def Stop.Stuck : Stop → Prop
  | .error _ => False
  | .overrun => False
  | .exit _ => True
  | .diverges => True

/-! ## The sizes -/

theorem int_eq {n : Int} (h1 : -2 ^ 31 ≤ n) (h2 : n < 2 ^ 31) : int n = n := by
  unfold int
  omega

theorem int_range (n : Int) : -2 ^ 31 ≤ int n ∧ int n < 2 ^ 31 := by
  unfold int
  omega

theorem enlarge_zero {reqsize : Int} (h : 0 < reqsize) (fuel : Nat) :
    enlarge STRBUF_DEFAULT_INCREMENT reqsize fuel 0 = .error .diverges := by
  induction fuel with
  | zero => rfl
  | succ fuel ih =>
    rw [enlarge, if_pos h]
    exact ih

/-- A size that has become negative doubles to -2^31, and then to 0. -/
theorem enlarge_neg {reqsize : Int} (h : 0 < reqsize) {i j : Nat} (hij : j + i = 31) (fuel : Nat) :
    enlarge STRBUF_DEFAULT_INCREMENT reqsize fuel (-2 ^ j) = .error .diverges := by
  have hpos : (0 : Int) < 2 ^ j := Int.pow_pos (by decide)
  induction i generalizing j fuel with
  | zero =>
    obtain rfl : j = 31 := by omega
    cases fuel with
    | zero => rfl
    | succ fuel =>
      rw [enlarge, if_pos (by omega)]
      exact enlarge_zero h fuel
  | succ i ih =>
    cases fuel with
    | zero => rfl
    | succ fuel =>
      have hle : (2 : Int) ^ (j + 1) ≤ 2 ^ 31 := by
        exact_mod_cast Nat.pow_le_pow_right (by decide : 0 < 2) (by omega : j + 1 ≤ 31)
      have hnext : int (-2 ^ j * -STRBUF_DEFAULT_INCREMENT) = -2 ^ (j + 1) := by
        rw [show -2 ^ j * -STRBUF_DEFAULT_INCREMENT = -(2 : Int) ^ (j + 1) by
          rw [pow_succ, STRBUF_DEFAULT_INCREMENT]
          ring]
        exact int_eq (by omega) (by omega)
      rw [enlarge, if_pos (by omega), hnext]
      exact ih (by omega) fuel (Int.pow_pos (by decide))

/-- The sizes double up to the limit, and after it they overflow. -/
theorem enlarge_eq {reqsize : Int} (h : 0 < reqsize) {i k fuel : Nat} (hik : k + i = 21)
    (hfuel : i < fuel) :
    (reqsize ≤ limit ∧ ∃ k', k' ≤ 21 ∧ reqsize ≤ 1023 * 2 ^ k' ∧
      enlarge STRBUF_DEFAULT_INCREMENT reqsize fuel (1023 * 2 ^ k) = .ok (1023 * 2 ^ k')) ∨
    ((limit : Int) < reqsize ∧
      enlarge STRBUF_DEFAULT_INCREMENT reqsize fuel (1023 * 2 ^ k) = .error .diverges) := by
  induction i generalizing k fuel with
  | zero =>
    obtain rfl : k = 21 := by omega
    obtain ⟨fuel, rfl⟩ : ∃ n, fuel = n + 1 := ⟨fuel - 1, by omega⟩
    rw [enlarge]
    by_cases hlt : (1023 * 2 ^ 21 : Int) < reqsize
    · right
      refine ⟨hlt, ?_⟩
      rw [if_pos hlt]
      exact enlarge_neg h (j := 22) (i := 9) rfl fuel
    · left
      rw [if_neg hlt]
      exact ⟨by show reqsize ≤ 1023 * 2 ^ 21; omega, 21, le_refl _, by omega, rfl⟩
  | succ i ih =>
    obtain ⟨fuel, rfl⟩ : ∃ n, fuel = n + 1 := ⟨fuel - 1, by omega⟩
    have hle : (2 : Int) ^ (k + 1) ≤ 2 ^ 21 := by
      exact_mod_cast Nat.pow_le_pow_right (by decide : 0 < 2) (by omega : k + 1 ≤ 21)
    have hsucc : (2 : Int) ^ (k + 1) = 2 ^ k * 2 := pow_succ 2 k
    have hpos : (0 : Int) < 2 ^ k := Int.pow_pos (by decide)
    rw [enlarge]
    by_cases hlt : (1023 * 2 ^ k : Int) < reqsize
    · have hnext : int (1023 * 2 ^ k * -STRBUF_DEFAULT_INCREMENT) = 1023 * 2 ^ (k + 1) := by
        rw [show 1023 * 2 ^ k * -STRBUF_DEFAULT_INCREMENT = 1023 * (2 : Int) ^ (k + 1) by
          rw [pow_succ, STRBUF_DEFAULT_INCREMENT]
          ring]
        exact int_eq (by omega) (by omega)
      rw [if_pos hlt, hnext]
      exact ih (by omega) (by omega)
    · left
      have hlimit : reqsize ≤ limit := by
        show reqsize ≤ 1023 * 2 ^ 21
        omega
      rw [if_neg hlt]
      exact ⟨hlimit, k, by omega, by omega, rfl⟩

/-- A buffer that may be full, with no space for a zero byte. -/
structure Strbuf.Bounded (s : Strbuf) : Prop where
  increment : s.increment = STRBUF_DEFAULT_INCREMENT
  size : ∃ k, k ≤ 21 ∧ s.size = 1023 * 2 ^ k
  length_le : s.length ≤ s.size

theorem Strbuf.Valid.bounded {s : Strbuf} (hs : s.Valid) : s.Bounded :=
  ⟨hs.increment, hs.size, le_of_lt hs.room⟩

theorem Strbuf.Bounded.size_le {s : Strbuf} (hs : s.Bounded) : s.size ≤ limit := by
  obtain ⟨k, hk, hsize⟩ := hs.size
  have hle : (2 : Int) ^ k ≤ 2 ^ 21 := by
    exact_mod_cast Nat.pow_le_pow_right (by decide : 0 < 2) hk
  show s.size ≤ 1023 * 2 ^ 21
  omega

theorem Strbuf.Valid.size_le {s : Strbuf} (hs : s.Valid) : s.size ≤ limit := hs.bounded.size_le

theorem Strbuf.Bounded.empty_length {s : Strbuf} (hs : s.Bounded) :
    strbuf_empty_length s = s.size - s.length - 1 := by
  have hlimit : limit = 1023 * 2 ^ 21 := rfl
  have hsize := hs.size_le
  have hle := hs.length_le
  have hlength : (0 : Int) ≤ s.length := Int.natCast_nonneg _
  exact int_eq (by omega) (by omega)

/-- A size up to the limit is made, a larger one that is an `int` is looked for in vain, and one that
is none is refused. -/
theorem strbuf_resize_eq {s : Strbuf} (hs : s.Bounded) {len : Nat} (hlen : s.size ≤ len)
    (hlt : len < 2 ^ 32) :
    (len < limit ∧ ∃ k, k ≤ 21 ∧ (len : Int) < 1023 * 2 ^ k ∧
      strbuf_resize s (int len) = .ok { s with size := 1023 * 2 ^ k }) ∨
    (limit ≤ len ∧ len < INT_MAX ∧ strbuf_resize s (int len) = .error .diverges) ∨
    (INT_MAX ≤ len ∧ ∃ msg, strbuf_resize s (int len) = .error (.exit msg)) := by
  have hlimit : limit = 1023 * 2 ^ 21 := rfl
  have hmax : INT_MAX = 2 ^ 31 - 1 := rfl
  have hlength : (0 : Int) ≤ s.length := Int.natCast_nonneg _
  obtain ⟨k, hk, hsize⟩ := hs.size
  have hpos : (0 : Int) < 2 ^ k := Int.pow_pos (by decide)
  rw [strbuf_resize, calculate_new_size]
  by_cases hneg : 2 ^ 31 ≤ len
  · -- the length has become negative
    right; right
    have hint : int len ≤ 0 := by
      unfold int
      omega
    rw [if_pos hint]
    exact ⟨by omega, _, rfl⟩
  have hint : int len = len := int_eq (by omega) (by omega)
  rw [hint, if_neg (by omega)]
  simp only
  by_cases hlast : len = 2 ^ 31 - 1
  · -- the required size has become negative
    right; right
    have hreq : int ((len : Int) + 1) = -2 ^ 31 := by
      subst hlast
      rfl
    rw [hreq, if_pos (by omega), ok_bind, if_pos (by decide)]
    exact ⟨by omega, _, rfl⟩
  have hreq : int ((len : Int) + 1) = len + 1 := int_eq (by omega) (by omega)
  rw [hreq, if_neg (by omega), hs.increment, if_pos (by decide), hsize]
  have hpositive : (0 : Int) < len + 1 := by omega
  rcases enlarge_eq hpositive (Nat.add_sub_of_le hk)
    (show 21 - k < 2 ^ 32 + 1 by omega) with ⟨hle, k', hk', hlt', heq⟩ | ⟨hlt', heq⟩
  · left
    have hpos' : (0 : Int) < 2 ^ k' := Int.pow_pos (by decide)
    rw [heq, ok_bind, if_neg (by omega)]
    exact ⟨by omega, k', hk', by omega, rfl⟩
  · right; left
    rw [heq]
    exact ⟨by omega, by omega, rfl⟩

/-- Space is made where the limit allows it. -/
theorem strbuf_ensure_empty_length_cases {s : Strbuf} (hs : s.Bounded) {n : Nat} (hn : n < 2 ^ 31) :
    (s.buf.length + n < limit ∧ ∃ s' : Strbuf, s'.Valid ∧ s'.buf = s.buf ∧
      s.length + n < s'.size ∧ strbuf_ensure_empty_length s n = .ok s') ∨
    (limit ≤ s.buf.length + n ∧ s.length + n < INT_MAX ∧
      strbuf_ensure_empty_length s n = .error .diverges) ∨
    (INT_MAX ≤ s.length + n ∧ ∃ msg, strbuf_ensure_empty_length s n = .error (.exit msg)) := by
  have hlimit : limit = 1023 * 2 ^ 21 := rfl
  have hle := hs.length_le
  have hsize := hs.size_le
  have hlength : s.length = s.buf.length := rfl
  rw [strbuf_ensure_empty_length, hs.empty_length]
  by_cases hfit : s.size - s.length - 1 < n
  · rw [if_pos hfit]
    have hcast : s.length + (n : Int) = ((s.buf.length + n : Nat) : Int) := by
      rw [hlength, Nat.cast_add]
    rw [hcast]
    rcases @strbuf_resize_eq s hs (s.buf.length + n) (by omega) (by omega) with
      ⟨hlt, k, hk, hlen, heq⟩ | h | h
    · refine .inl ⟨hlt, { s with size := 1023 * 2 ^ k }, ⟨hs.increment, ⟨k, hk, rfl⟩, ?_⟩, rfl, ?_,
        heq⟩
      · show s.length < 1023 * 2 ^ k
        omega
      · rw [← hcast] at hlen
        exact hlen
    · exact .inr (.inl h)
    · exact .inr (.inr h)
  · rw [if_neg hfit]
    exact .inl ⟨by omega, s, ⟨hs.increment, hs.size, by omega⟩, rfl, by omega, rfl⟩

theorem strbuf_ensure_empty_length_eq {s : Strbuf} (hs : s.Valid) {n : Nat} (hn : n < 2 ^ 31) :
    (s.buf.length + n < limit ∧ ∃ s' : Strbuf, s'.Valid ∧ s'.buf = s.buf ∧
      s.length + n < s'.size ∧ strbuf_ensure_empty_length s n = .ok s') ∨
    (limit ≤ s.buf.length + n ∧ ∃ e, Stop.Stuck e ∧ strbuf_ensure_empty_length s n = .error e) := by
  have hlimit : (limit : Int) ≤ INT_MAX := by decide
  have hlength : s.length = s.buf.length := rfl
  rcases strbuf_ensure_empty_length_cases hs.bounded hn with h | ⟨hle, -, heq⟩ | ⟨hle, msg, heq⟩
  · exact .inl h
  · exact .inr ⟨hle, .diverges, trivial, heq⟩
  · exact .inr ⟨by omega, .exit msg, trivial, heq⟩

/-! ## Writes -/

/-- What is written: the number of bytes that have to fit, and the text or the error that ends it. -/
structure Output where
  need : Nat
  result : Except String (List UInt8)

namespace Output

def text (s : List UInt8) : Output := ⟨s.length, .ok s⟩

def error (msg : String) : Output := ⟨0, .error msg⟩

def append (o o' : Output) : Output :=
  match o.result with
  | .ok s => ⟨max o.need (s.length + o'.need), o'.result.map (s ++ ·)⟩
  | .error _ => o

theorem append_ok {o o' : Output} {s t : List UInt8} (h : o.result = .ok s)
    (h' : o'.result = .ok t) : (o.append o').result = .ok (s ++ t) := by
  rw [append, h]
  show o'.result.map (s ++ ·) = .ok (s ++ t)
  rw [h']
  rfl

end Output

/-- The outcome for a buffer with this much in it. -/
def Outcome (o : Output) (buf : List UInt8) (r : M Strbuf) : Prop :=
  (buf.length + o.need < limit ∧
    ((∃ text s, o.result = .ok text ∧ r = .ok s ∧ s.Valid ∧ s.buf = buf ++ text) ∨
      ∃ msg, o.result = .error msg ∧ r = .error (.error msg))) ∨
  (limit ≤ buf.length + o.need ∧ ∃ e, Stop.Stuck e ∧ r = .error e)

/-- `f` writes the output to every buffer. -/
def Writes (f : Strbuf → M Strbuf) (o : Output) : Prop :=
  ∀ s : Strbuf, s.Valid → Outcome o s.buf (f s)

variable {f g : Strbuf → M Strbuf} {o o' : Output}

theorem Writes.bind (hf : Writes f o) (hg : Writes g o') :
    Writes (fun s => f s >>= g) (o.append o') := by
  intro s hs
  rcases hf s hs with ⟨hlt, ⟨text, s', ho, hfs, hs', hbuf⟩ | ⟨msg, ho, hfs⟩⟩ | ⟨hle, e, he, hfs⟩
  · have hneed : (o.append o').need = max o.need (text.length + o'.need) := by
      rw [Output.append, ho]
    have hlen : s'.buf.length = s.buf.length + text.length := by rw [hbuf, List.length_append]
    show Outcome _ _ (f s >>= g)
    rw [hfs, ok_bind]
    rcases hg s' hs' with ⟨hlt', ⟨text', s'', ho', hgs, hs'', hbuf'⟩ | ⟨msg, ho', hgs⟩⟩ |
      ⟨hle, e, he, hgs⟩
    · refine .inl ⟨by omega, .inl ⟨text ++ text', s'', Output.append_ok ho ho', hgs, hs'', ?_⟩⟩
      rw [hbuf', hbuf, List.append_assoc]
    · refine .inl ⟨by omega, .inr ⟨msg, ?_, hgs⟩⟩
      rw [Output.append, ho]
      show o'.result.map (text ++ ·) = .error msg
      rw [ho']
      rfl
    · exact .inr ⟨by omega, e, he, hgs⟩
  · have happend : o.append o' = o := by rw [Output.append, ho]
    show Outcome _ _ (f s >>= g)
    rw [happend, hfs]
    exact .inl ⟨hlt, .inr ⟨msg, ho, rfl⟩⟩
  · have hneed : o.need ≤ (o.append o').need := by
      rw [Output.append]
      cases o.result with
      | ok text => exact Nat.le_max_left _ _
      | error msg => exact le_refl _
    show Outcome _ _ (f s >>= g)
    rw [hfs]
    exact .inr ⟨by omega, e, he, rfl⟩

theorem writes_nothing : Writes (fun s => .ok s) (Output.text []) := by
  intro s hs
  have hlt : s.buf.length < limit := by
    have hsize := hs.size_le
    have hroom : (s.buf.length : Int) < s.size := hs.room
    omega
  exact .inl ⟨hlt, .inl ⟨[], s, rfl, rfl, hs, (List.append_nil _).symm⟩⟩

theorem writes_error (msg : String) :
    Writes (fun _ => .error (.error msg)) (Output.error msg) := by
  intro s hs
  rcases writes_nothing s hs with ⟨hlt, -⟩ | ⟨hle, e, he, h⟩
  · exact .inl ⟨hlt, .inr ⟨msg, rfl, rfl⟩⟩
  · cases h

/-- A text for which enough space has been made. -/
theorem writes_within {c : List UInt8} {n : Nat} (hc : c.length ≤ n) (hn : n < 2 ^ 31)
    (hf : ∀ s s' : Strbuf, s.Valid → s'.Valid → s'.buf = s.buf → s.length + n < s'.size →
      strbuf_ensure_empty_length s n = .ok s' → f s = .ok { s' with buf := s'.buf ++ c })
    (hstuck : ∀ s e, strbuf_ensure_empty_length s n = .error e → f s = .error e) :
    Writes f ⟨n, .ok c⟩ := by
  intro s hs
  rcases strbuf_ensure_empty_length_eq hs hn with ⟨hlt, s', hs', hbuf, hroom, heq⟩ | ⟨hle, e, he, heq⟩
  · refine .inl ⟨hlt, .inl ⟨c, _, rfl, hf s s' hs hs' hbuf hroom heq, ⟨hs'.increment, hs'.size, ?_⟩, ?_⟩⟩
    · show ((s'.buf ++ c).length : Int) < s'.size
      rw [hbuf, List.length_append, Nat.cast_add]
      have hlength : s.length = s.buf.length := rfl
      omega
    · show s'.buf ++ c = s.buf ++ c
      rw [hbuf]
  · exact .inr ⟨hle, e, he, hstuck s e heq⟩

theorem strbuf_append_mem_unsafe_eq {s : Strbuf} {c : List UInt8} (h : s.length + c.length ≤ s.size) :
    strbuf_append_mem_unsafe s c = .ok { s with buf := s.buf ++ c } := if_pos h

theorem writes_mem {c : List UInt8} (hc : c.length < 2 ^ 31) :
    Writes (fun s => strbuf_append_mem s c) (Output.text c) := by
  have hint : int c.length = c.length := int_eq (by omega) (by omega)
  refine writes_within (le_refl _) hc (fun s s' _ _ hbuf hroom heq => ?_) fun s e heq => ?_
  · rw [strbuf_append_mem, hint, heq, ok_bind]
    apply strbuf_append_mem_unsafe_eq
    have hlength : s'.length = s.length := by rw [Strbuf.length, hbuf, Strbuf.length]
    omega
  · rw [strbuf_append_mem, hint, heq]
    rfl

theorem writes_char (c : UInt8) : Writes (fun s => strbuf_append_char s c) (Output.text [c]) := by
  have hlt : [c].length < 2 ^ 31 := by
    rw [List.length_singleton]
    decide
  refine writes_within (le_refl _) hlt (fun s s' _ _ hbuf hroom heq => ?_) fun s e heq => ?_
  · have heq' : strbuf_ensure_empty_length s 1 = .ok s' := heq
    rw [strbuf_append_char, heq', ok_bind]
    apply strbuf_append_mem_unsafe_eq
    have hlength : s'.length = s.length := by rw [Strbuf.length, hbuf, Strbuf.length]
    rw [hlength]
    exact le_of_lt hroom
  · have heq' : strbuf_ensure_empty_length s 1 = .error e := heq
    rw [strbuf_append_char, heq']
    rfl

end Luaxx.Json
