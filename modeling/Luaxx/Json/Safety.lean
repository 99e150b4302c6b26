import Luaxx.Json.Requests
import Mathlib.Data.List.Induction

/-!
# Safe runs of the encoder

The space for a string is computed as `len * 6 + 2` in a `size_t` and passed on as an `int`. For a
string that is short enough the request is exact, and the size that it leads to is made, looked for
without end, or refused. For any other string it is too small, except by chance.
-/

namespace Luaxx.Json

open Luaxx.Ctype Luaxx.Result Strbuf

/-! ## Safety -/

section

variable (libc : Libc) (cfg : Config)

/-- What a request writes, and the space that it needs. -/
def Request.output : Request → Output
  | text c _ => .text c
  | number n => numberOutput libc cfg n
  | string s => stringOutput s
  | raise msg => .error msg

def outputAll : List Request → Output
  | [] => .text []
  | r :: rs => (r.output libc cfg).append (outputAll rs)

/-- The size with the space for it is no `int`. -/
def Request.Unrepresentable (r : Request) (json : Strbuf) : Prop :=
  INT_MAX < json.length + (r.output libc cfg).need + 1

/-- Nothing is written outside of the buffer, and what is unrepresentable is refused. -/
structure Request.Safe (r : Request) (json : Strbuf) : Prop where
  within : r.perform libc cfg json ≠ .error .overrun
  refused : r.Unrepresentable libc cfg json → ∃ msg, r.perform libc cfg json = .error (.exit msg)

/-- The buffer that `json_encode` writes to. -/
def startBuffer (encode_buf : Strbuf) : M Strbuf :=
  if !cfg.encode_keep_buffer then strbuf_init 0 else .ok (strbuf_reset encode_buf)

theorem json_encode_requests (encode_buf : Strbuf) (v : Value) :
    json_encode libc cfg encode_buf v = do
      let json ← startBuffer cfg encode_buf
      let json ← performAll libc cfg (requests cfg v 0 1) json
      return (json.buf, if cfg.encode_keep_buffer then json else encode_buf) := by
  have hdata := @performs_data libc cfg v 0 1
  rw [json_encode, startBuffer]
  cases cfg.encode_keep_buffer with
  | false =>
    show (strbuf_init 0 >>= fun json => json_append_data libc cfg v 0 1 json >>= _) = _
    rw [funext hdata]
    rfl
  | true =>
    show (json_append_data libc cfg v 0 1 (strbuf_reset encode_buf) >>= _) = _
    rw [hdata]
    rfl

/-- The buffers that are kept between calls. A call may have ended with an error of Lua, after some
of its requests. -/
inductive Kept : Strbuf → Prop
  | new {s : Strbuf} : strbuf_new 0 = .ok s → Kept s
  | call {cfg : Config} {v : Value} {s s₀ s' : Strbuf} {rs rs' : List Request} : Kept s →
    startBuffer cfg s = .ok s₀ → requests cfg v 0 1 = rs ++ rs' →
    performAll libc cfg rs s₀ = .ok s' → Kept s'

/-- The call comes to a request with this in the buffer. -/
def Reaches (encode_buf : Strbuf) (v : Value) (r : Request) (json : Strbuf) : Prop :=
  ∃ rs rs' s, requests cfg v 0 1 = rs ++ r :: rs' ∧ startBuffer cfg encode_buf = .ok s ∧
    performAll libc cfg rs s = .ok json

def EncodesSafely (encode_buf : Strbuf) (v : Value) : Prop :=
  ∀ r json, Reaches libc cfg encode_buf v r json → r.Safe libc cfg json

end

variable {libc : Libc} {cfg : Config} {encode_buf s : Strbuf} {v : Value}

/-! ## Requests that are made -/

/-- The `int` can be computed. -/
def Request.Short : Request → Prop
  | string s => ShortString s
  | _ => True

theorem writes_request {r : Request} (h : r.Short) :
    Writes (r.perform libc cfg) (r.output libc cfg) := by
  cases r with
  | text c short => exact writes_mem (by omega)
  | number n => exact writes_number n
  | string s => exact writes_string h
  | raise msg => exact writes_error msg

theorem writes_requests {rs : List Request} (h : ∀ r ∈ rs, r.Short) :
    Writes (performAll libc cfg rs) (outputAll libc cfg rs) := by
  induction rs with
  | nil => exact writes_nothing
  | cons r rs ih =>
    rw [List.forall_mem_cons] at h
    exact (writes_request h.1).bind (ih h.2)

/-! ## Buffers that stay bounded -/

/-- The program is not ended. -/
def Continues (r : M Strbuf) : Prop := Yields (fun e => ∀ msg, e ≠ .exit msg) Strbuf.Bounded r

theorem append_mem_unsafe_continues (hs : s.Bounded) (c : List UInt8) :
    Continues ( strbuf_append_mem_unsafe s c) := by
  rw [ strbuf_append_mem_unsafe]
  split
  · next hroom =>
    refine ⟨hs.increment, hs.size, ?_⟩
    show ((s.buf ++ c).length : Int) ≤ s.size
    rw [List.length_append, Nat.cast_add]
    exact hroom
  · exact fun _ h => by cases h

theorem length_append_char (s : Strbuf) (c : UInt8) :
    ({ s with buf := s.buf ++ [c] } : Strbuf).length = s.length + 1 := by
  rw [Strbuf.length, List.length_append]
  rfl

theorem Strbuf.Bounded.append_char (hs : s.Bounded) (hroom : s.length < s.size) (c : UInt8) :
    ({ s with buf := s.buf ++ [c] } : Strbuf).Bounded := by
  refine ⟨hs.increment, hs.size, ?_⟩
  rw [length_append_char]
  exact hroom

/-- The loop keeps count of the space. -/
theorem append_string_loop_continues (str : List UInt8) {s : Strbuf} {space : Int} (hs : s.Bounded)
    (hspace : space = s.size - s.length - 1) :
    Continues (strbuf_append_string.loop space s str) := by
  induction str generalizing s space with
  | nil => exact hs
  | cons c str ih =>
    -- a character is appended where there is space
    have hstep : ∀ s : Strbuf, s.Bounded → s.length < s.size →
        Continues ( strbuf_append_char_unsafe s c >>= fun s' =>
          strbuf_append_string.loop (s.size - s.length - 1 - 1) s' str) := by
      intro s hs hroom
      have heq : strbuf_append_char_unsafe s c = .ok { s with buf := s.buf ++ [c] } := by
        apply strbuf_append_mem_unsafe_eq
        rw [List.length_singleton]
        exact hroom
      rw [heq, ok_bind]
      apply ih (hs.append_char hroom c)
      rw [length_append_char]
      show s.size - s.length - 1 - 1 = s.size - (s.length + 1) - 1
      omega
    have hlimit : limit = 2145386496 := by decide
    have hmax : INT_MAX = 2147483647 := by decide
    have hsize := hs.size_le
    have hle := hs.length_le
    rw [strbuf_append_string.loop]
    by_cases hfull : space < 1
    · rw [if_pos hfull]
      have hlength : s.length = s.buf.length := rfl
      have hcast : s.length + 1 = ((s.buf.length + 1 : Nat) : Int) := by omega
      have hfit : s.size ≤ (s.buf.length + 1 : Nat) := by omega
      have hresize := strbuf_resize_eq hs hfit (by omega)
      rw [hcast]
      generalize strbuf_resize s (int (s.buf.length + 1 : Nat)) = r at hresize
      rcases hresize with ⟨-, k, hk, hlt, rfl⟩ | ⟨-, -, rfl⟩ | ⟨hge, -⟩
      · have hs' : ({ s with size := 1023 * 2 ^ k } : Strbuf).Bounded := by
          refine ⟨hs.increment, ⟨k, hk, rfl⟩, ?_⟩
          show s.length ≤ 1023 * 2 ^ k
          omega
        rw [ok_bind, hs'.empty_length]
        apply hstep _ hs'
        show s.length < 1023 * 2 ^ k
        omega
      · exact fun _ h => by cases h
      · omega
    · rw [if_neg hfull, hspace]
      exact hstep s hs (by omega)

theorem append_escaped_continues (hs : s.Bounded) (c : UInt8) :
    Continues (json_append_escaped s c) := by
  rw [json_append_escaped]
  split
  · rw [strbuf_append_string, hs.empty_length]
    exact append_string_loop_continues _ hs rfl
  · exact append_mem_unsafe_continues hs _

theorem append_loop_continues (str : List UInt8) (hs : s.Bounded) :
    Continues (str.foldlM json_append_escaped s) := by
  induction str generalizing s with
  | nil => exact hs
  | cons c str ih =>
    rw [List.foldlM_cons]
    exact (append_escaped_continues hs c).bind fun s' hs' => ih hs'

/-- Space for any `int`. -/
theorem ensure_yields (hs : s.Bounded) {n : Int} (hn : n < 2 ^ 31) :
    Yields (fun e => ∀ msg, e = .exit msg → INT_MAX ≤ s.length + n) Strbuf.Bounded
      (strbuf_ensure_empty_length s n) := by
  by_cases hneg : n < 0
  · have hle := hs.length_le
    rw [strbuf_ensure_empty_length, hs.empty_length, if_neg (by omega)]
    exact hs
  · obtain ⟨m, rfl⟩ := Int.eq_ofNat_of_zero_le (Int.not_lt.mp hneg)
    rcases @strbuf_ensure_empty_length_cases s hs m (by omega) with
      ⟨_, s', hs', _, _, heq⟩ | ⟨_, _, heq⟩ | ⟨hge, msg, heq⟩
    · exact yields_of_eq heq hs'.bounded
    · rw [heq]
      exact fun _ h => by cases h
    · rw [heq]
      exact fun _ _ => hge

/-- The first request for a string is the only one that may be refused. -/
theorem append_string_yields (hs : s.Bounded) {str : List UInt8} {r : M Strbuf}
    (hr : json_append_string str s = r) :
    Yields (fun e => ∀ msg, e = .exit msg → INT_MAX ≤ s.length + int (str.length * 6 + 2))
      Strbuf.Bounded r := by
  have hint := (int_range (str.length * 6 + 2)).2
  rw [← hr, json_append_string]
  generalize int (str.length * 6 + 2) = n at hint
  refine (ensure_yields hs hint).bind fun s hs => ?_
  have hrest : Continues (do
      let json ← strbuf_append_char_unsafe s (ch '"')
      let json ← str.foldlM json_append_escaped json
      strbuf_append_char_unsafe json (ch '"')) :=
    (append_mem_unsafe_continues hs _).bind fun s hs =>
      (append_loop_continues str hs).bind fun s hs => append_mem_unsafe_continues hs _
  revert hrest
  generalize (do
      let json ← strbuf_append_char_unsafe s (ch '"')
      let json ← str.foldlM json_append_escaped json
      strbuf_append_char_unsafe json (ch '"')) = r
  intro hrest
  cases r with
  | ok s => exact hrest
  | error e => exact fun msg h => absurd h (hrest msg)

/-! ## Buffers that are kept -/

theorem within_bounded {s' : Strbuf} (hs : s.Bounded) {c : List UInt8} {n : Int} (hn : n < 2 ^ 31)
    (h : (strbuf_ensure_empty_length s n >>= fun s => strbuf_append_mem_unsafe s c) = .ok s') :
    s'.Bounded := by
  obtain ⟨s₁, hensure, happend⟩ := bind_ok.mp h
  have hs₁ := (ensure_yields hs hn).ok_of_eq hensure
  exact (append_mem_unsafe_continues hs₁ c).ok_of_eq happend

theorem append_mem_bounded {s' : Strbuf} (hs : s.Bounded) {c : List UInt8}
    (h : strbuf_append_mem s c = .ok s') : s'.Bounded :=
  within_bounded hs (int_range _).2 h

theorem append_number_bounded {s' : Strbuf} (hs : s.Bounded) {n : Number}
    (h : json_append_number libc cfg n s = .ok s') : s'.Bounded := by
  have hformat := @within_bounded s s' hs (libc.g_fmt cfg.encode_number_precision n)
    FPCONV_G_FMT_BUFSIZE (by decide)
  have hmem : ∀ c, strbuf_append_mem s c = .ok s' → s'.Bounded := fun c => append_mem_bounded hs
  have hraise : ∀ t r, (json_encode_exception t r : M Strbuf) = .ok s' → s'.Bounded :=
    fun t r h => by cases h
  rw [json_append_number] at h
  split at h
  · split at h
    · exact hraise _ _ h
    · exact hformat h
  · split at h
    · exact hmem _ h
    · exact hformat h
  · split at h
    · exact hmem _ h
    · exact hformat h

theorem perform_bounded {s' : Strbuf} (hs : s.Bounded) {r : Request}
    (h : r.perform libc cfg s = .ok s') : s'.Bounded := by
  cases r with
  | text c short => exact append_mem_bounded hs h
  | number n => exact append_number_bounded hs h
  | string str => exact append_string_yields hs h
  | raise msg => cases h

theorem performAll_bounded {s' : Strbuf} (hs : s.Bounded) {rs : List Request}
    (h : performAll libc cfg rs s = .ok s') : s'.Bounded := by
  induction rs generalizing s with
  | nil =>
    cases h
    exact hs
  | cons r rs ih =>
    obtain ⟨s₁, hfirst, hrest⟩ := bind_ok.mp h
    exact ih (perform_bounded hs hfirst) hrest

theorem reset_valid (hs : s.Bounded) : (strbuf_reset s).Valid := by
  obtain ⟨k, hk, hsize⟩ := hs.size
  refine ⟨hs.increment, ⟨k, hk, hsize⟩, ?_⟩
  have hpos : (0 : Int) < 2 ^ k := Int.pow_pos (by decide)
  show (0 : Int) < s.size
  omega

theorem new_valid (h : strbuf_new 0 = .ok s) : s.Valid := by
  cases h
  exact ⟨rfl, ⟨0, by decide, rfl⟩, by decide⟩

variable (cfg) in
/-- A call starts with an empty buffer. -/
theorem startBuffer_ok (hs : encode_buf.Bounded) :
    ∃ s, startBuffer cfg encode_buf = .ok s ∧ s.Valid ∧ s.buf = [] := by
  rw [startBuffer]
  cases cfg.encode_keep_buffer with
  | false => exact ⟨_, rfl, new_valid rfl, rfl⟩
  | true => exact ⟨_, rfl, reset_valid hs, rfl⟩

theorem Kept.bounded (h : Kept libc encode_buf) : encode_buf.Bounded := by
  induction h with
  | new h => exact (new_valid h).bounded
  | @call cfg v s s₀ s' rs rs' _ hstart _ hrun ih =>
    obtain ⟨s₁, hs₁, hvalid, -⟩ := startBuffer_ok cfg ih
    rw [hs₁] at hstart
    cases hstart
    exact performAll_bounded hvalid.bounded hrun

/-! ## Requests that are refused -/

theorem append_string_exit (hs : s.Bounded) {str : List UInt8}
    (h : INT_MAX ≤ s.length + int (str.length * 6 + 2)) :
    ∃ msg, json_append_string str s = .error (.exit msg) := by
  have hlimit : (limit : Int) < INT_MAX := by decide
  have hsize := hs.size_le
  have hle := hs.length_le
  have hlength : s.length = s.buf.length := rfl
  have hint := (int_range (str.length * 6 + 2)).2
  rw [json_append_string]
  generalize int (str.length * 6 + 2) = n at h hint
  obtain ⟨m, rfl⟩ := Int.eq_ofNat_of_zero_le (show 0 ≤ n by omega)
  rcases @strbuf_ensure_empty_length_cases s hs m (by omega) with
    ⟨hlt, -⟩ | ⟨-, hlt, -⟩ | ⟨-, msg, heq⟩
  · omega
  · omega
  · rw [heq]
    exact ⟨msg, rfl⟩

theorem numberOutput_need (n : Number) : (numberOutput libc cfg n).need ≤ 32 := by
  rw [numberOutput]
  cases cfg.encode_invalid_numbers with
  | off =>
    show (if _ then _ else _ : Output).need ≤ 32
    split
    · exact Nat.zero_le _
    · exact le_refl _
  | on =>
    show (if _ then _ else _ : Output).need ≤ 32
    split
    · decide
    · exact le_refl _
  | null =>
    show (if _ then _ else _ : Output).need ≤ 32
    split
    · decide
    · exact le_refl _

theorem shortString_int {str : List UInt8} (h : ShortString str) :
    int (str.length * 6 + 2) = str.length * 6 + 2 := by
  rw [ShortString, INT_MAX] at h
  exact int_eq (by omega) (by omega)

theorem safe_of_short (hs : s.Valid) {r : Request} (hr : r.Short) : r.Safe libc cfg s := by
  have hwrites := @writes_request libc cfg r hr s hs
  refine ⟨fun hover => ?_, fun hlarge => ?_⟩
  · rw [hover] at hwrites
    rcases hwrites with ⟨-, ⟨t, s', -, h, -⟩ | ⟨msg, -, h⟩⟩ | ⟨-, e, he, h⟩
    · cases h
    · cases h
    · cases h
      exact he
  · have hlimit : (limit : Int) = 2145386496 := by decide
    have hmax : INT_MAX = 2147483647 := by decide
    have hsize := hs.size_le
    have hroom := hs.room
    rw [Request.Unrepresentable] at hlarge
    cases r with
    | text c short =>
      have hneed : ((Request.text c short).output libc cfg).need = c.length := rfl
      omega
    | number n =>
      have hneed : (numberOutput libc cfg n).need ≤ 32 := numberOutput_need n
      rw [Request.output] at hlarge
      omega
    | string str =>
      have hneed : ((Request.string str).output libc cfg).need = str.length * 6 + 2 := rfl
      apply append_string_exit hs.bounded
      rw [shortString_int hr]
      omega
    | raise msg =>
      have hneed : ((Request.raise msg).output libc cfg).need = 0 := rfl
      omega

/-- A string that is too long is refused exactly by chance. -/
theorem safe_of_long (hs : s.Bounded) {str : List UInt8} (h : ¬ ShortString str) :
    (Request.string str).Safe libc cfg s ↔ INT_MAX ≤ s.length + int (str.length * 6 + 2) := by
  refine ⟨fun hsafe => ?_, fun hchance => ?_⟩
  · have hlarge : (Request.string str).Unrepresentable libc cfg s := by
      have hneed : ((Request.string str).output libc cfg).need = str.length * 6 + 2 := rfl
      have hlength : (0 : Int) ≤ s.length := Int.natCast_nonneg _
      rw [ShortString, INT_MAX] at h
      rw [Request.Unrepresentable, hneed, INT_MAX]
      omega
    obtain ⟨msg, hexit⟩ := hsafe.refused hlarge
    exact append_string_yields hs hexit msg rfl
  · obtain ⟨msg, hexit⟩ := @append_string_exit s hs str hchance
    have hperform : (Request.string str).perform libc cfg s = .error (.exit msg) := hexit
    refine ⟨fun hover => ?_, fun _ => ⟨msg, hperform⟩⟩
    rw [hperform] at hover
    cases hover

/-! ## Runs -/

section

variable (libc : Libc) (cfg : Config)

/-- Where the encoder comes to a string that is too long, the wrapped number of bytes is refused by
chance. Before it come requests that can be made. -/
def Refuses (v : Value) : Prop :=
  ∀ rs str rs' t, requests cfg v 0 1 = rs ++ .string str :: rs' → (∀ r ∈ rs, r.Short) →
    (outputAll libc cfg rs).result = .ok t → (outputAll libc cfg rs).need < limit →
    ShortString str ∨ INT_MAX ≤ t.length + int (str.length * 6 + 2)

end

/-- What is in the buffer after requests that can be made. -/
theorem performAll_text (hs : s.Valid) (hempty : s.buf = []) {rs : List Request}
    (hrs : ∀ r ∈ rs, r.Short) {s' : Strbuf} (h : performAll libc cfg rs s = .ok s') :
    s'.Valid ∧ (outputAll libc cfg rs).result = .ok s'.buf ∧
      (outputAll libc cfg rs).need < limit := by
  have hwrites := @writes_requests libc cfg rs hrs s hs
  rw [h, Outcome, hempty, List.length_nil, Nat.zero_add] at hwrites
  rcases hwrites with ⟨hlt, ⟨t, s', ht, heq, hvalid, hbuf⟩ | ⟨msg, -, heq⟩⟩ | ⟨-, e, -, heq⟩
  · cases heq
    rw [List.nil_append] at hbuf
    rw [hbuf]
    exact ⟨hvalid, ht, hlt⟩
  · cases heq
  · cases heq

theorem exists_performAll (hs : s.Valid) (hempty : s.buf = []) {rs : List Request}
    (hrs : ∀ r ∈ rs, r.Short) {t : List UInt8} (ht : (outputAll libc cfg rs).result = .ok t)
    (hneed : (outputAll libc cfg rs).need < limit) :
    ∃ s', performAll libc cfg rs s = .ok s' ∧ s'.Bounded ∧ s'.buf = t := by
  have hwrites := @writes_requests libc cfg rs hrs s hs
  rw [Outcome, hempty, List.length_nil, Nat.zero_add] at hwrites
  rcases hwrites with ⟨-, ⟨t', s', ht', heq, hvalid, hbuf⟩ | ⟨msg, hmsg, -⟩⟩ | ⟨hle, -⟩
  · rw [ht] at ht'
    cases ht'
    exact ⟨s', heq, hvalid.bounded, hbuf⟩
  · rw [ht] at hmsg
    cases hmsg
  · omega

/-- All requests before one that the encoder comes to can be made: the induction is on their
number, and the last of them has not been refused. -/
theorem short_of_reached (hrefuses : Refuses libc cfg v) (hs : s.Valid) (hempty : s.buf = [])
    {rs : List Request} {rs' : List Request} (hreq : requests cfg v 0 1 = rs ++ rs') {s' : Strbuf}
    (hrun : performAll libc cfg rs s = .ok s') : ∀ r ∈ rs, r.Short := by
  induction rs using List.reverseRecOn generalizing rs' s' with
  | nil => exact fun r h => absurd h List.not_mem_nil
  | append_singleton rs r ih =>
    rw [List.append_assoc, List.singleton_append] at hreq
    rw [performAll_append, performAll_singleton] at hrun
    obtain ⟨s₁, hfirst, hlast⟩ := bind_ok.mp hrun
    have hshort := ih hreq hfirst
    obtain ⟨hvalid, hresult, hneed⟩ := performAll_text hs hempty hshort hfirst
    have hr : r.Short := by
      cases r with
      | string str =>
        rcases hrefuses rs str rs' s₁.buf hreq hshort hresult hneed with h | h
        · exact h
        · obtain ⟨msg, hexit⟩ := @append_string_exit s₁ hvalid.bounded str h
          have hlast : json_append_string str s₁ = .ok s' := hlast
          rw [hexit] at hlast
          cases hlast
      | text c short => trivial
      | number n => trivial
      | raise msg => trivial
    intro r' hr'
    rcases List.mem_append.mp hr' with h | h
    · exact hshort r' h
    · rw [List.mem_singleton.mp h]
      exact hr

/-- A call of the encoder is safe exactly if every string that is too long for the `int` is
refused by chance. -/
theorem json_encode_safe_iff (hkept : Kept libc encode_buf) (v : Value) :
    EncodesSafely libc cfg encode_buf v ↔ Refuses libc cfg v := by
  obtain ⟨s, hstart, hs, hempty⟩ := startBuffer_ok cfg hkept.bounded
  constructor
  · intro hsafe rs str rs' t hreq hshort hresult hneed
    obtain ⟨s', hrun, hbounded, hbuf⟩ := exists_performAll hs hempty hshort hresult hneed
    by_cases hstr : ShortString str
    · exact .inl hstr
    · right
      have hreaches : Reaches libc cfg encode_buf v (.string str) s' :=
        ⟨rs, rs', s, hreq, hstart, hrun⟩
      rw [← hbuf]
      exact (safe_of_long hbounded hstr).mp (hsafe _ _ hreaches)
  · rintro hrefuses r json ⟨rs, rs', s₀, hreq, hstart₀, hrun⟩
    rw [hstart] at hstart₀
    cases hstart₀
    have hshort := short_of_reached hrefuses hs hempty hreq hrun
    obtain ⟨hvalid, hresult, hneed⟩ := performAll_text hs hempty hshort hrun
    cases r with
    | string str =>
      rcases hrefuses rs str rs' json.buf hreq hshort hresult hneed with h | h
      · exact safe_of_short hvalid h
      · by_cases hstr : ShortString str
        · exact safe_of_short hvalid hstr
        · exact (safe_of_long hvalid.bounded hstr).mpr h
    | text c short => exact safe_of_short hvalid trivial
    | number n => exact safe_of_short hvalid trivial
    | raise msg => exact safe_of_short hvalid trivial

/-- The encoder of a safe call does not write outside of the buffer. -/
theorem EncodesSafely.within (h : EncodesSafely libc cfg encode_buf v) :
    json_encode libc cfg encode_buf v ≠ .error .overrun := by
  rw [json_encode_requests]
  cases hstart : startBuffer cfg encode_buf with
  | error e =>
    rw [startBuffer] at hstart
    split at hstart
    · cases hstart
    · cases hstart
  | ok s =>
    have hrun : ∀ rs rs' s', requests cfg v 0 1 = rs ++ rs' → performAll libc cfg rs s = .ok s' →
        performAll libc cfg rs' s' ≠ .error .overrun := by
      intro rs rs'
      induction rs' generalizing rs with
      | nil => exact fun s' _ _ h => by cases h
      | cons r rs' ih =>
        intro s' hreq hfirst
        have hsafe := h r s' ⟨rs, rs', s, hreq, hstart, hfirst⟩
        show r.perform libc cfg s' >>= performAll libc cfg rs' ≠ _
        cases hr : r.perform libc cfg s' with
        | ok s₁ =>
          rw [ok_bind]
          refine ih (rs ++ [r]) s₁ ?_ ?_
          · rw [hreq, List.append_assoc, List.singleton_append]
          · rw [performAll_append, hfirst, ok_bind, performAll_singleton, hr]
        | error e =>
          rw [error_bind]
          intro hover
          cases hover
          exact hsafe.within hr
    have hall := hrun [] _ s rfl rfl
    rw [ok_bind]
    cases hperform : performAll libc cfg (requests cfg v 0 1) s with
    | ok s' => exact fun h => by cases h
    | error e =>
      intro hover
      cases hover
      exact hall hperform

/-- Characters that are not escaped are written wherever they come to. -/
theorem append_loop_overrun {c : UInt8} (hc : char2escape c = none) {n : Nat} (hs : s.Bounded)
    (hfull : s.size < s.length + n) :
    (List.replicate n c).foldlM json_append_escaped s = .error .overrun := by
  induction n generalizing s with
  | zero =>
    have hle := hs.length_le
    omega
  | succ n ih =>
    rw [List.replicate_succ, List.foldlM_cons, json_append_escaped, hc]
    have hsingle : (([c] : List UInt8).length : Int) = 1 := rfl
    have hstep : strbuf_append_char_unsafe s c =
        if s.length + 1 ≤ s.size then .ok { s with buf := s.buf ++ [c] } else .error .overrun := rfl
    show strbuf_append_char_unsafe s c >>= _ = _
    rw [hstep]
    by_cases hroom : s.length + 1 ≤ s.size
    · rw [if_pos hroom, ok_bind]
      apply ih (hs.append_char hroom c)
      rw [length_append_char]
      show s.size < s.length + 1 + n
      omega
    · rw [if_neg hroom]
      rfl

/-- The space for 715827883 characters is computed as 4 bytes. -/
theorem json_encode_overruns :
    let libc : Libc := ⟨fun _ _ => chars "0", fun _ _ => by decide, fun _ => 0⟩
    let new : Strbuf := ⟨[], STRBUF_DEFAULT_SIZE, STRBUF_DEFAULT_INCREMENT⟩
    let str : List UInt8 := List.replicate 715827883 (ch 'a')
    Kept libc new ∧ json_encode libc Config.default new (.string str) = .error .overrun ∧
      ¬ EncodesSafely libc Config.default new (.string str) := by
  intro libc new str
  have hnew : strbuf_new 0 = .ok new := rfl
  have hoverrun : json_append_string str new = .error .overrun := by
    have hint : int (str.length * 6 + 2) = 4 := by
      rw [List.length_replicate]
      rfl
    have hquoted : ({ new with buf := [ch '"'] } : Strbuf).Bounded :=
      ⟨rfl, ⟨0, by decide, rfl⟩, by decide⟩
    have hloop : str.foldlM json_append_escaped { new with buf := [ch '"'] } = .error .overrun :=
      append_loop_overrun (by decide) hquoted (by decide)
    have hensure : strbuf_ensure_empty_length new 4 = .ok new := rfl
    have hquote : strbuf_append_char_unsafe new (ch '"') = .ok { new with buf := [ch '"'] } :=
      strbuf_append_mem_unsafe_eq (show new.length + 1 ≤ new.size by decide)
    rw [json_append_string, hint, hensure, ok_bind, hquote, ok_bind, hloop]
    rfl
  have hencode : json_encode libc Config.default new (.string str) = .error .overrun := by
    show json_append_string str new >>= _ = _
    rw [hoverrun]
    rfl
  exact ⟨.new hnew, hencode, fun hsafe => hsafe.within hencode⟩

theorem json_encode_safe_true :
    let libc : Libc := ⟨fun _ _ => chars "0", fun _ _ => by decide, fun _ => 0⟩
    let new : Strbuf := ⟨[], STRBUF_DEFAULT_SIZE, STRBUF_DEFAULT_INCREMENT⟩
    EncodesSafely libc Config.default new (.boolean true) ↔
      Refuses libc Config.default (.boolean true) := by
  intro libc new
  exact json_encode_safe_iff (.new rfl) (.boolean true)

end Luaxx.Json
