import Luaxx.Json.Lexer

/-!
# The parser reads the grammar

For a text of the grammar, the functions for values return what it denotes, and otherwise raise an
error: where a string has a NUL or is too long for the buffer, or the nesting is too deep.
-/

namespace Luaxx.Json

open Luaxx.Ctype Luaxx.Result Luaxx.Spans Strbuf

/-! ## Trees -/

section

variable (cfg : Config) (size : Int)

mutual

/-- The strings fit into a buffer of the size, and the containers into the limits. -/
def Tree.Fits : Tree → Nat → Nat → Prop
  | .string s, _, _ => (s.length : Int) < size
  | .array js, depth, top =>
    ((depth + 1 : Nat) : Int) ≤ cfg.decode_max_depth ∧ top + 2 ≤ LUAI_MAXCSTACK ∧
      FitAll js (depth + 1) (top + 1)
  | .object ms, depth, top =>
    ((depth + 1 : Nat) : Int) ≤ cfg.decode_max_depth ∧ top + 3 ≤ LUAI_MAXCSTACK ∧
      FitMembers ms (depth + 1) (top + 2)
  | _, _, _ => True

def FitAll : List Tree → Nat → Nat → Prop
  | [], _, _ => True
  | j :: js, depth, top => j.Fits depth top ∧ FitAll js depth top

def FitMembers : List (List UInt8 × Tree) → Nat → Nat → Prop
  | [], _, _ => True
  | (key, j) :: ms, depth, top =>
    ((key.length : Int) < size ∧ j.Fits depth top) ∧ FitMembers ms depth top

end

end

/-- The fields of an array from index `i` on. -/
def setElements : Nat → List (Key × Value) → List Value → List (Key × Value)
  | _, fields, [] => fields
  | i, fields, v :: vs => setElements (i + 1) (lua_rawset fields (.number (cast_num i)) v) vs

def setMembers : List (Key × Value) → List (List UInt8 × Value) → List (Key × Value)
  | fields, [] => fields
  | fields, (key, v) :: vs => setMembers (lua_rawset fields (.string key) v) vs

section

variable (libc : Libc)

mutual

/-- The value that a tree denotes. -/
def Tree.value : Tree → Value
  | .null => .lightuserdata 0
  | .boolean b => .boolean b
  | .number t => .number (libc.strtod t)
  | .string s => .string s
  | .array js => .table (setElements 1 [] (values js))
  | .object ms => .table (setMembers [] (memberValues ms))

def values : List Tree → List Value
  | [] => []
  | j :: js => j.value :: values js

def memberValues : List (List UInt8 × Tree) → List (List UInt8 × Value)
  | [] => []
  | (key, j) :: ms => (key, j.value) :: memberValues ms

end

end

variable {libc : Libc} {cfg : Config} {json : Source}

/-! ## Outcomes -/

/-- The computation returns `a` where `good` holds, and raises an error elsewhere. -/
def Decides {α : Type} (good : Prop) (x : M α) (a : α) : Prop :=
  (good ∧ x = .ok a) ∨ (¬ good ∧ ∃ e, x = .error e)

namespace Decides

variable {α β : Type} {good good' : Prop} {x : M α} {f : α → M β} {a : α} {b : β}

theorem congr (h : Decides good x a) (hiff : good ↔ good') : Decides good' x a := by
  rwa [Decides, ← hiff]

theorem bind (h : Decides good x a) (hf : good → Decides good' (f a) b) :
    Decides (good ∧ good') (x >>= f) b := by
  rcases h with ⟨hgood, hx⟩ | ⟨hbad, e, hx⟩
  · rw [hx, ok_bind]
    exact (hf hgood).congr ⟨fun h => ⟨hgood, h⟩, And.right⟩
  · rw [hx]
    exact .inr ⟨fun h => hbad h.1, e, rfl⟩

theorem ok_iff (h : Decides good x a) : (∃ a, x = .ok a) ↔ good := by
  rcases h with ⟨hgood, hx⟩ | ⟨hbad, e, hx⟩
  · exact ⟨fun _ => hgood, fun _ => ⟨a, hx⟩⟩
  · rw [hx]
    exact ⟨fun ⟨_, h⟩ => (nomatch h), fun h => absurd h hbad⟩

end Decides

theorem decides_guard {c : Prop} [Decidable c] (msg : String) :
    Decides c (if c then (.ok () : M Unit) else .error (.error msg)) () := by
  by_cases hc : c
  · exact .inl ⟨hc, if_pos hc⟩
  · exact .inr ⟨hc, _, if_neg hc⟩

/-! ## Values -/

/-- A delimiter after white space ends a number. -/
theorem numberEnd_append {w rest : List UInt8} {c : UInt8} (hw : Whitespace w)
    (hc : c ∈ [ch ',', ch ']', ch '}', 0]) : NumberEnd (w ++ c :: rest) := by
  have hclass : ∀ c : UInt8, whitespace c = true → isalnum c = false ∧ c ≠ ch '.' := fun c =>
    forall_byte (P := fun c => whitespace c = true → isalnum c = false ∧ c ≠ ch '.')
      (by decide) c
  rcases w with _ | ⟨d, w⟩
  · have hdelimiter : ∀ c ∈ [ch ',', ch ']', ch '}', 0], isalnum c = false ∧ c ≠ ch '.' := by
      decide +kernel
    exact hdelimiter c hc
  · exact hclass d (hw d List.mem_cons_self)

theorem whitespace_notMem {w : List UInt8} (hw : Whitespace w) : 0 ∉ w := by
  intro h
  have hzero := hw 0 h
  revert hzero
  decide

section

variable (libc : Libc) (cfg : Config) (json : Source)

/-- A token and the value that begins with it. -/
def readValue (fuel depth top : Nat) (p : List UInt8) : M (Value × List UInt8) :=
  json_next_token libc cfg json p >>= fun next =>
    json_process_value libc cfg json fuel next depth top

/-- What `arrayLoop` does after an element. -/
def afterElement (fuel depth top n i : Nat) (fields : List (Key × Value))
    (r : Value × List UInt8) : M (Value × List UInt8) := do
  let fields := lua_rawset fields (.number (cast_num i)) r.1
  let (token, index, ptr) ← json_next_token libc cfg json r.2
  if token = .plain .arrEnd then .ok (.table fields, ptr)
  else if token ≠ .plain .comma then json_throw_parse_error "comma or array end" token index
  else
    let next ← json_next_token libc cfg json ptr
    arrayLoop libc cfg json (json_process_value libc cfg json fuel) depth top n (i + 1) fields next

/-- What `objectLoop` does after a member. -/
def afterMember (fuel depth top n : Nat) (fields : List (Key × Value)) (key : List UInt8)
    (r : Value × List UInt8) : M (Value × List UInt8) := do
  let fields := lua_rawset fields (.string key) r.1
  let (token, index, ptr) ← json_next_token libc cfg json r.2
  if token = .plain .objEnd then .ok (.table fields, ptr)
  else if token ≠ .plain .comma then json_throw_parse_error "comma or object end" token index
  else
    let next ← json_next_token libc cfg json ptr
    objectLoop libc cfg json (json_process_value libc cfg json fuel) depth top n fields next

def ReadsValue (t : List UInt8) (j : Tree) : Prop :=
  ∀ (w rest : List UInt8) (fuel depth top : Nat), Whitespace w → NumberEnd rest → t.length < fuel →
    Decides (0 ∉ t ∧ j.Fits cfg json.tmp.size depth top)
      (readValue libc cfg json fuel depth top (w ++ (t ++ rest))) (j.value libc, rest)

def ReadsElements (ts : List UInt8) (js : List Tree) : Prop :=
  ∀ (rest : List UInt8) (fuel depth top n i : Nat) (fields : List (Key × Value)),
    ts.length < fuel → ts.length < n →
    Decides (0 ∉ ts ∧ FitAll cfg json.tmp.size js depth (top + 1))
      (json_next_token libc cfg json (ts ++ ch ']' :: rest) >>=
        arrayLoop libc cfg json (json_process_value libc cfg json fuel) depth top n i fields)
      (.table (setElements i fields (values libc js)), rest)

def ReadsMember (m : List UInt8) (e : List UInt8 × Tree) : Prop :=
  ∀ (c : UInt8) (r : List UInt8) (fuel depth top n : Nat) (fields : List (Key × Value)) (good : Prop)
    (result : Value × List UInt8), c ∈ [ch ',', ch ']', ch '}', 0] → m.length < fuel →
    (∀ w, Whitespace w → Decides good
      (afterMember libc cfg json fuel depth top n fields e.1 (e.2.value libc, w ++ c :: r)) result) →
    Decides ((0 ∉ m ∧ (e.1.length : Int) < json.tmp.size ∧
        e.2.Fits cfg json.tmp.size depth (top + 2)) ∧ good)
      (json_next_token libc cfg json (m ++ c :: r) >>=
        objectLoop libc cfg json (json_process_value libc cfg json fuel) depth top (n + 1) fields)
      result

def ReadsMembers (ts : List UInt8) (ms : List (List UInt8 × Tree)) : Prop :=
  ∀ (rest : List UInt8) (fuel depth top n : Nat) (fields : List (Key × Value)),
    ts.length < fuel → ts.length < n →
    Decides (0 ∉ ts ∧ FitMembers cfg json.tmp.size ms depth (top + 2))
      (json_next_token libc cfg json (ts ++ ch '}' :: rest) >>=
        objectLoop libc cfg json (json_process_value libc cfg json fuel) depth top n fields)
      (.table (setMembers fields (memberValues libc ms)), rest)

end

theorem arrayLoop_succ {p : List UInt8} (fuel depth top n i : Nat) (fields : List (Key × Value)) :
    (json_next_token libc cfg json p >>=
      arrayLoop libc cfg json (json_process_value libc cfg json fuel) depth top (n + 1) i fields) =
    readValue libc cfg json fuel depth (top + 1) p >>=
      afterElement libc cfg json fuel depth top n i fields := by
  rw [readValue]
  cases json_next_token libc cfg json p with
  | error e => rfl
  | ok next => rfl

theorem objectLoop_succ {p key : List UInt8} {index : Nat} (fuel depth top n : Nat)
    (fields : List (Key × Value)) :
    objectLoop libc cfg json (json_process_value libc cfg json fuel) depth top (n + 1) fields
      (.string key, index, p) =
    json_next_token libc cfg json p >>= fun next =>
      if next.1 ≠ .plain .colon then json_throw_parse_error "colon" next.1 next.2.1
      else readValue libc cfg json fuel depth (top + 2) next.2.2 >>=
        afterMember libc cfg json fuel depth top n fields key := by
  rw [objectLoop]
  cases json_next_token libc cfg json p with
  | error e => rfl
  | ok next =>
    obtain ⟨token, index, q⟩ := next
    rw [ok_bind, ok_bind]
    simp only
    split
    · rfl
    · rw [readValue]
      cases json_next_token libc cfg json q with
      | error e => rfl
      | ok next => rfl

theorem reads_atom {t : List UInt8} {j : Tree} {token : Token} (hnul : 0 ∉ t)
    (hfits : ∀ depth top, j.Fits cfg json.tmp.size depth top)
    (hread : ∀ w rest, Whitespace w → NumberEnd rest →
      readToken libc cfg json (w ++ (t ++ rest)) = .ok (token, rest))
    (hvalue : ∀ fuel index rest depth top, json_process_value libc cfg json (fuel + 1)
      (token, index, rest) depth top = .ok (j.value libc, rest)) :
    ReadsValue libc cfg json t j := by
  intro w rest fuel depth top hw hrest hfuel
  obtain ⟨fuel, rfl⟩ : ∃ n, fuel = n + 1 := ⟨fuel - 1, by omega⟩
  obtain ⟨index, hnext⟩ := next_ok (hread w rest hw hrest)
  rw [readValue, hnext, ok_bind, hvalue]
  exact .inl ⟨⟨hnul, hfits depth top⟩, rfl⟩

/-- The characters of numbers. -/
def numberChar (c : UInt8) : Bool :=
  isdigit c || c == ch '.' || c == ch '-' || c == ch '+' || c == ch 'e' || c == ch 'E'

theorem LenientNumber.chars {n : List UInt8} (h : LenientNumber n) :
    ∀ c ∈ n, numberChar c = true := by
  have hdigits : ∀ {ds : List UInt8}, Digits ds → ∀ c ∈ ds, numberChar c = true := by
    intro ds hds c hc
    rw [numberChar, hds c hc]
    rfl
  obtain ⟨sign, decimal, e, rfl, hsign, hdecimal, he⟩ := h
  rw [List.forall_mem_append, List.forall_mem_append]
  refine ⟨?_, ?_, ?_⟩
  · rcases hsign with rfl | rfl <;> decide
  · have hpointed : ∀ {whole ds : List UInt8}, Digits whole → Digits ds →
        ∀ c ∈ whole ++ ch '.' :: ds, numberChar c = true := by
      intro whole ds hw hds
      rw [List.forall_mem_append, List.forall_mem_cons]
      exact ⟨hdigits hw, by decide, hdigits hds⟩
    have hnil : Digits [] := fun _ h => absurd h List.not_mem_nil
    rcases hdecimal with hdecimal | hdecimal
    · cases hdecimal with
      | whole h => exact hdigits h.1
      | point h hds hne => exact hpointed h.1 hds
    · cases hdecimal with
      | last h => exact hpointed h.1 hnil
      | first hds hne => exact hpointed hnil hds
  · cases he with
    | none => exact fun _ h => absurd h List.not_mem_nil
    | some hletter hsign hds hne =>
      rw [List.forall_mem_cons, List.forall_mem_append]
      refine ⟨?_, ?_, hdigits hds⟩
      · rcases hletter with rfl | rfl <;> decide
      · rcases hsign with rfl | rfl | rfl <;> decide

theorem LenientNumber.nul {n : List UInt8} (h : LenientNumber n) : 0 ∉ n := by
  intro hmem
  have hzero := h.chars 0 hmem
  revert hzero
  decide

theorem reads_number {t : List UInt8} (h : LenientNumber t) :
    ReadsValue libc cfg json t (.number t) :=
  reads_atom h.nul (fun _ _ => by unfold Tree.Fits; trivial)
    (fun _ _ hw hrest => readToken_number hw h hrest) fun _ _ _ _ _ => rfl

theorem reads_literal : ReadsValue libc cfg json (chars "null") .null ∧
    ReadsValue libc cfg json (chars "true") (.boolean true) ∧
    ReadsValue libc cfg json (chars "false") (.boolean false) := by
  refine ⟨?_, ?_, ?_⟩
  · exact reads_atom (by decide) (fun _ _ => by unfold Tree.Fits; trivial)
      (fun _ _ hw _ => (readToken_literal hw).2.2) fun _ _ _ _ _ => rfl
  · exact reads_atom (by decide) (fun _ _ => by unfold Tree.Fits; trivial)
      (fun _ _ hw _ => (readToken_literal hw).1) fun _ _ _ _ _ => rfl
  · exact reads_atom (by decide) (fun _ _ => by unfold Tree.Fits; trivial)
      (fun _ _ hw _ => (readToken_literal hw).2.1) fun _ _ _ _ _ => rfl

theorem reads_string {t s : List UInt8} (h : IsString t s) (hsize : 0 ≤ json.tmp.size) :
    ReadsValue libc cfg json t (.string s) := by
  intro w rest fuel depth top hw hrest hfuel
  obtain ⟨fuel, rfl⟩ : ∃ n, fuel = n + 1 := ⟨fuel - 1, by omega⟩
  rw [readValue, Tree.Fits]
  rcases @readToken_string libc cfg json w t s rest hw h hsize with
    ⟨hgood, hread⟩ | ⟨hbad, ⟨e, hread⟩ | ⟨msg, q, hread⟩⟩
  · obtain ⟨index, hnext⟩ := next_ok hread
    rw [hnext]
    exact .inl ⟨hgood, rfl⟩
  · rw [next_error hread]
    exact .inr ⟨hbad, e, rfl⟩
  · obtain ⟨index, hnext⟩ := next_ok hread
    rw [hnext]
    exact .inr ⟨hbad, _, rfl⟩

/-! ### Arrays -/

theorem reads_one {w t w' : List UInt8} {j : Tree} (hw : Whitespace w)
    (h : ReadsValue libc cfg json t j) (hw' : Whitespace w') :
    ReadsElements libc cfg json (w ++ (t ++ w')) [j] := by
  intro rest fuel depth top n i fields hfuel hn
  simp only [List.length_append] at hfuel hn
  obtain ⟨n, rfl⟩ : ∃ m, n = m + 1 := ⟨n - 1, by omega⟩
  have hshape : w ++ (t ++ w') ++ ch ']' :: rest = w ++ (t ++ (w' ++ ch ']' :: rest)) := by
    simp only [List.append_assoc]
  have hloop : Decides True (afterElement libc cfg json fuel depth top n i fields
      (j.value libc, w' ++ ch ']' :: rest)) (.table (setElements i fields (values libc [j])), rest) := by
    obtain ⟨index, hnext⟩ := @next_plain libc cfg json w' rest (ch ']') .arrEnd hw' (by decide)
    rw [afterElement, hnext]
    exact .inl ⟨trivial, rfl⟩
  rw [hshape, arrayLoop_succ]
  refine ((h w _ fuel depth (top + 1) hw (numberEnd_append hw' (by simp)) (by omega)).bind
    fun _ => hloop).congr ?_
  have hnul := whitespace_notMem hw
  have hnul' := whitespace_notMem hw'
  rw [FitAll, FitAll]
  simp only [List.mem_append, not_or]
  tauto

theorem reads_more {w t w' ts : List UInt8} {j : Tree} {js : List Tree} (hw : Whitespace w)
    (h : ReadsValue libc cfg json t j) (hw' : Whitespace w')
    (hs : ReadsElements libc cfg json ts js) :
    ReadsElements libc cfg json (w ++ (t ++ (w' ++ ch ',' :: ts))) (j :: js) := by
  intro rest fuel depth top n i fields hfuel hn
  simp only [List.length_append, List.length_cons] at hfuel hn
  obtain ⟨n, rfl⟩ : ∃ m, n = m + 1 := ⟨n - 1, by omega⟩
  have hshape : w ++ (t ++ (w' ++ ch ',' :: ts)) ++ ch ']' :: rest =
      w ++ (t ++ (w' ++ ch ',' :: (ts ++ ch ']' :: rest))) := by
    simp only [List.append_assoc, List.cons_append]
  have hloop : Decides (0 ∉ ts ∧ FitAll cfg json.tmp.size js depth (top + 1))
      (afterElement libc cfg json fuel depth top n i fields
        (j.value libc, w' ++ ch ',' :: (ts ++ ch ']' :: rest)))
      (.table (setElements i fields (values libc (j :: js))), rest) := by
    obtain ⟨index, hnext⟩ := @next_plain libc cfg json w' (ts ++ ch ']' :: rest) (ch ',') .comma
      hw' (by decide)
    rw [afterElement, hnext]
    exact hs rest fuel depth top n (i + 1) _ (by omega) (by omega)
  rw [hshape, arrayLoop_succ]
  refine ((h w _ fuel depth (top + 1) hw (numberEnd_append hw' List.mem_cons_self) (by omega)).bind
    fun _ => hloop).congr ?_
  have hcomma : (0 : UInt8) ≠ ch ',' := by decide
  have hnul := whitespace_notMem hw
  have hnul' := whitespace_notMem hw'
  rw [FitAll]
  simp only [List.mem_append, List.mem_cons, not_or]
  tauto

theorem decides_descend (depth top slots : Nat) (ptr : List UInt8) :
    Decides ((depth : Int) ≤ cfg.decode_max_depth ∧ top + slots ≤ LUAI_MAXCSTACK)
      (json_decode_descend cfg json depth top slots ptr) () := by
  rw [json_decode_descend, lua_checkstack]
  simp only [decide_eq_true_eq]
  exact decides_guard _

/-- What `json_parse_array_context` does after the bracket. -/
theorem reads_array {body : List UInt8} {js : List Tree}
    (h : ∀ (rest : List UInt8) (fuel depth top n : Nat), body.length < fuel → body.length < n →
      Decides (0 ∉ body ∧ FitAll cfg json.tmp.size js depth (top + 1))
        (json_next_token libc cfg json (body ++ ch ']' :: rest) >>= fun next =>
          if next.1 = .plain .arrEnd then .ok (.table [], next.2.2)
          else arrayLoop libc cfg json (json_process_value libc cfg json fuel) depth top n 1 [] next)
        (.table (setElements 1 [] (values libc js)), rest)) :
    ReadsValue libc cfg json (ch '[' :: (body ++ [ch ']'])) (.array js) := by
  intro w rest fuel depth top hw hrest hfuel
  obtain ⟨fuel, rfl⟩ : ∃ n, fuel = n + 1 := ⟨fuel - 1, by omega⟩
  rw [List.length_cons, List.length_append] at hfuel
  have hshape : w ++ (ch '[' :: (body ++ [ch ']']) ++ rest) =
      w ++ ch '[' :: (body ++ ch ']' :: rest) := by
    simp only [List.append_assoc, List.cons_append, List.nil_append]
  obtain ⟨index, hnext⟩ := @next_plain libc cfg json w (body ++ ch ']' :: rest) (ch '[') .arrBegin
    hw (by decide)
  have hbody := h rest fuel (depth + 1) top ((body ++ ch ']' :: rest).length + 1) (by omega)
    (by rw [List.length_append]; omega)
  rw [hshape, readValue, hnext]
  refine ((decides_descend (depth + 1) top 2 (body ++ ch ']' :: rest)).bind fun _ => hbody).congr ?_
  have hopen : (0 : UInt8) ≠ ch '[' := by decide
  have hclose : (0 : UInt8) ≠ ch ']' := by decide
  rw [Tree.Fits]
  simp only [List.mem_cons, List.mem_append, List.not_mem_nil, or_false, not_or]
  tauto

theorem reads_emptyArray {w : List UInt8} (hw : Whitespace w) :
    ReadsValue libc cfg json (ch '[' :: (w ++ [ch ']'])) (.array []) := by
  refine reads_array fun rest fuel depth top n _ _ => ?_
  obtain ⟨index, hnext⟩ := @next_plain libc cfg json w rest (ch ']') .arrEnd hw (by decide)
  rw [hnext, FitAll]
  exact .inl ⟨⟨whitespace_notMem hw, trivial⟩, rfl⟩

/-- The elements do not begin like the end of an array. -/
theorem reads_elements {ts : List UInt8} {js : List Tree} (h : ReadsElements libc cfg json ts js)
    (hfirst : ∀ rest, peek (skipWhitespace (ts ++ rest)) ≠ ch ']') :
    ReadsValue libc cfg json (ch '[' :: (ts ++ [ch ']'])) (.array js) := by
  refine reads_array fun rest fuel depth top n hfuel hn => ?_
  have hloop := h rest fuel depth top n 1 [] hfuel hn
  cases hnext : json_next_token libc cfg json (ts ++ ch ']' :: rest) with
  | error e =>
    rw [hnext] at hloop
    exact hloop
  | ok next =>
    obtain ⟨token, index, q⟩ := next
    rw [hnext, ok_bind] at hloop
    rw [ok_bind, if_neg]
    · exact hloop
    · rintro rfl
      exact hfirst _ (peek_of_token (readToken_of_next hnext) (by decide))

/-! ### Objects -/

theorem reads_member {w k w' v t w'' key : List UInt8} {j : Tree} (hsize : 0 ≤ json.tmp.size)
    (hw : Whitespace w) (hk : IsString k key) (hw' : Whitespace w') (hv : Whitespace v)
    (h : ReadsValue libc cfg json t j) (hw'' : Whitespace w'') :
    ReadsMember libc cfg json (w ++ (k ++ (w' ++ ch ':' :: (v ++ (t ++ w''))))) (key, j) := by
  intro c r fuel depth top n fields good result hc hfuel hafter
  simp only [List.length_append, List.length_cons] at hfuel
  have hshape : w ++ (k ++ (w' ++ ch ':' :: (v ++ (t ++ w'')))) ++ c :: r =
      w ++ (k ++ (w' ++ ch ':' :: (v ++ (t ++ (w'' ++ c :: r))))) := by
    simp only [List.append_assoc, List.cons_append]
  have hiff : ((0 ∉ k ∧ (key.length : Int) < json.tmp.size) ∧
      (0 ∉ t ∧ j.Fits cfg json.tmp.size depth (top + 2)) ∧ good) ↔
      (0 ∉ w ++ (k ++ (w' ++ ch ':' :: (v ++ (t ++ w'')))) ∧
        (key.length : Int) < json.tmp.size ∧ j.Fits cfg json.tmp.size depth (top + 2)) ∧ good := by
    have hcolon : (0 : UInt8) ≠ ch ':' := by decide
    have h1 := whitespace_notMem hw
    have h2 := whitespace_notMem hw'
    have h3 := whitespace_notMem hv
    have h4 := whitespace_notMem hw''
    simp only [List.mem_append, List.mem_cons, not_or]
    tauto
  rw [hshape]
  refine Decides.congr ?_ hiff
  rcases @readToken_string libc cfg json w k key _ hw hk hsize with
    ⟨hgood, hread⟩ | ⟨hbad, ⟨e, hread⟩ | ⟨msg, q, hread⟩⟩
  · obtain ⟨index, hnext⟩ := next_ok hread
    obtain ⟨index', hcolon⟩ := @next_plain libc cfg json w' (v ++ (t ++ (w'' ++ c :: r))) (ch ':')
      .colon hw' (by decide)
    have hvalue := (h v (w'' ++ c :: r) fuel depth (top + 2) hv (numberEnd_append hw'' hc)
      (by omega)).bind fun _ => hafter w'' hw''
    rw [hnext, ok_bind, objectLoop_succ, hcolon]
    exact hvalue.congr ⟨fun h => ⟨hgood, h⟩, And.right⟩
  · rw [next_error hread]
    exact .inr ⟨fun h => hbad h.1, e, rfl⟩
  · obtain ⟨index, hnext⟩ := next_ok hread
    rw [hnext]
    exact .inr ⟨fun h => hbad h.1, _, rfl⟩

theorem reads_oneMember {m : List UInt8} {e : List UInt8 × Tree}
    (h : ReadsMember libc cfg json m e) : ReadsMembers libc cfg json m [e] := by
  intro rest fuel depth top n fields hfuel hn
  obtain ⟨n, rfl⟩ : ∃ m, n = m + 1 := ⟨n - 1, by omega⟩
  refine (h (ch '}') rest fuel depth top n fields True _ (by decide) hfuel fun w hw => ?_).congr ?_
  · obtain ⟨index, hnext⟩ := @next_plain libc cfg json w rest (ch '}') .objEnd hw (by decide)
    rw [afterMember, hnext]
    exact .inl ⟨trivial, rfl⟩
  · obtain ⟨key, j⟩ := e
    rw [FitMembers, FitMembers]
    tauto

theorem reads_moreMembers {m ts : List UInt8} {e : List UInt8 × Tree}
    {es : List (List UInt8 × Tree)} (h : ReadsMember libc cfg json m e)
    (hs : ReadsMembers libc cfg json ts es) :
    ReadsMembers libc cfg json (m ++ ch ',' :: ts) (e :: es) := by
  intro rest fuel depth top n fields hfuel hn
  rw [List.length_append, List.length_cons] at hfuel hn
  obtain ⟨n, rfl⟩ : ∃ m, n = m + 1 := ⟨n - 1, by omega⟩
  obtain ⟨key, j⟩ := e
  rw [List.append_assoc, List.cons_append]
  refine (h (ch ',') (ts ++ ch '}' :: rest) fuel depth top n fields
    (0 ∉ ts ∧ FitMembers cfg json.tmp.size es depth (top + 2)) _ (by decide) (by omega)
    fun w hw => ?_).congr ?_
  · obtain ⟨index, hnext⟩ := @next_plain libc cfg json w (ts ++ ch '}' :: rest) (ch ',') .comma hw
      (by decide)
    rw [afterMember, hnext]
    exact hs rest fuel depth top n _ (by omega) (by omega)
  · have hcomma : (0 : UInt8) ≠ ch ',' := by decide
    rw [FitMembers]
    simp only [List.mem_append, List.mem_cons, not_or]
    tauto

/-- What `json_parse_object_context` does after the brace. -/
theorem reads_object {body : List UInt8} {ms : List (List UInt8 × Tree)}
    (h : ∀ (rest : List UInt8) (fuel depth top n : Nat), body.length < fuel → body.length < n →
      Decides (0 ∉ body ∧ FitMembers cfg json.tmp.size ms depth (top + 2))
        (json_next_token libc cfg json (body ++ ch '}' :: rest) >>= fun next =>
          if next.1 = .plain .objEnd then .ok (.table [], next.2.2)
          else objectLoop libc cfg json (json_process_value libc cfg json fuel) depth top n [] next)
        (.table (setMembers [] (memberValues libc ms)), rest)) :
    ReadsValue libc cfg json (ch '{' :: (body ++ [ch '}'])) (.object ms) := by
  intro w rest fuel depth top hw hrest hfuel
  obtain ⟨fuel, rfl⟩ : ∃ n, fuel = n + 1 := ⟨fuel - 1, by omega⟩
  rw [List.length_cons, List.length_append] at hfuel
  have hshape : w ++ (ch '{' :: (body ++ [ch '}']) ++ rest) =
      w ++ ch '{' :: (body ++ ch '}' :: rest) := by
    simp only [List.append_assoc, List.cons_append, List.nil_append]
  obtain ⟨index, hnext⟩ := @next_plain libc cfg json w (body ++ ch '}' :: rest) (ch '{') .objBegin
    hw (by decide)
  have hbody := h rest fuel (depth + 1) top ((body ++ ch '}' :: rest).length + 1) (by omega)
    (by rw [List.length_append]; omega)
  rw [hshape, readValue, hnext]
  refine ((decides_descend (depth + 1) top 3 (body ++ ch '}' :: rest)).bind fun _ => hbody).congr ?_
  have hopen : (0 : UInt8) ≠ ch '{' := by decide
  have hclose : (0 : UInt8) ≠ ch '}' := by decide
  rw [Tree.Fits]
  simp only [List.mem_cons, List.mem_append, List.not_mem_nil, or_false, not_or]
  tauto

theorem reads_emptyObject {w : List UInt8} (hw : Whitespace w) :
    ReadsValue libc cfg json (ch '{' :: (w ++ [ch '}'])) (.object []) := by
  refine reads_object fun rest fuel depth top n _ _ => ?_
  obtain ⟨index, hnext⟩ := @next_plain libc cfg json w rest (ch '}') .objEnd hw (by decide)
  rw [hnext, FitMembers]
  exact .inl ⟨⟨whitespace_notMem hw, trivial⟩, rfl⟩

/-- The members do not begin like the end of an object. -/
theorem reads_members {ts : List UInt8} {ms : List (List UInt8 × Tree)}
    (h : ReadsMembers libc cfg json ts ms)
    (hfirst : ∀ rest, peek (skipWhitespace (ts ++ rest)) ≠ ch '}') :
    ReadsValue libc cfg json (ch '{' :: (ts ++ [ch '}'])) (.object ms) := by
  refine reads_object fun rest fuel depth top n hfuel hn => ?_
  have hloop := h rest fuel depth top n [] hfuel hn
  cases hnext : json_next_token libc cfg json (ts ++ ch '}' :: rest) with
  | error e =>
    rw [hnext] at hloop
    exact hloop
  | ok next =>
    obtain ⟨token, index, q⟩ := next
    rw [hnext, ok_bind] at hloop
    rw [ok_bind, if_neg]
    · exact hloop
    · rintro rfl
      exact hfirst _ (peek_of_token (readToken_of_next hnext) (by decide))

/-! ### Every text -/

theorem text_head {t : List UInt8} {j : Tree} (h : Text LenientNumber t j) (rest : List UInt8) :
    whitespace (peek (t ++ rest)) = false ∧ peek (t ++ rest) ≠ ch ']' := by
  cases h with
  | null => exact ⟨rfl, show ¬ ch 'n' = ch ']' by decide⟩
  | true => exact ⟨rfl, show ¬ ch 't' = ch ']' by decide⟩
  | false => exact ⟨rfl, show ¬ ch 'f' = ch ']' by decide⟩
  | number h =>
    have hend : NumberEnd [] := ⟨rfl, by decide⟩
    have hchar := (number_passes h hend).1
    rw [List.append_nil] at hchar
    have hpeek : peek (t ++ rest) = peek t := by
      rcases t with _ | ⟨c, t⟩
      · exact absurd hchar (by decide)
      · rfl
    rw [hpeek]
    have hclass : ∀ c : UInt8, c = ch '-' ∨ isdigit c = true → whitespace c = false ∧ c ≠ ch ']' :=
      fun c => forall_byte (P := fun c => c = ch '-' ∨ isdigit c = true →
        whitespace c = false ∧ c ≠ ch ']') (by decide) c
    exact hclass _ hchar
  | string h =>
    obtain ⟨-⟩ := h
    exact ⟨rfl, show ¬ ch '"' = ch ']' by decide⟩
  | emptyArray => exact ⟨rfl, show ¬ ch '[' = ch ']' by decide⟩
  | array => exact ⟨rfl, show ¬ ch '[' = ch ']' by decide⟩
  | emptyObject => exact ⟨rfl, show ¬ ch '{' = ch ']' by decide⟩
  | object => exact ⟨rfl, show ¬ ch '{' = ch ']' by decide⟩

theorem elements_head {ts : List UInt8} {js : List Tree} (h : Elements LenientNumber ts js)
    (rest : List UInt8) : peek (skipWhitespace (ts ++ rest)) ≠ ch ']' := by
  have hskip : ∀ {w t s : List UInt8} {j : Tree}, Whitespace w → Text LenientNumber t j →
      peek (skipWhitespace (w ++ (t ++ s))) ≠ ch ']' := by
    intro w t s j hw ht
    have hhead := text_head ht s
    rw [skipWhitespace_eq hw hhead.1]
    exact hhead.2
  cases h with
  | one hw ht hw' =>
    rw [List.append_assoc, List.append_assoc]
    exact hskip hw ht
  | more hw ht hw' hs =>
    rw [List.append_assoc, List.append_assoc]
    exact hskip hw ht

theorem members_head {ts : List UInt8} {ms : List (List UInt8 × Tree)}
    (h : Members LenientNumber ts ms) (rest : List UInt8) :
    peek (skipWhitespace (ts ++ rest)) ≠ ch '}' := by
  have hskip : ∀ {m s : List UInt8} {e : List UInt8 × Tree}, Member LenientNumber m e →
      peek (skipWhitespace (m ++ s)) ≠ ch '}' := by
    intro m s e hm
    obtain ⟨hw, ⟨-⟩, -, -, -, -⟩ := hm
    rw [List.append_assoc, skipWhitespace_eq hw rfl]
    exact show ¬ ch '"' = ch '}' by decide
  cases h with
  | one hm => exact hskip hm
  | more hm hs =>
    rw [List.append_assoc]
    exact hskip hm

mutual

/-- The parser returns the value of a text if it fits, and otherwise raises an error. -/
theorem reads_text (hsize : 0 ≤ json.tmp.size) :
    ∀ {t : List UInt8} {j : Tree}, Text LenientNumber t j → ReadsValue libc cfg json t j
  | _, _, .null => reads_literal.1
  | _, _, .true => reads_literal.2.1
  | _, _, .false => reads_literal.2.2
  | _, _, .number h => reads_number h
  | _, _, .string h => reads_string h hsize
  | _, _, .emptyArray hw => reads_emptyArray hw
  | _, _, .array h => reads_elements (elements_text hsize h) (elements_head h)
  | _, _, .emptyObject hw => reads_emptyObject hw
  | _, _, .object h => reads_members (members_text hsize h) (members_head h)

theorem elements_text (hsize : 0 ≤ json.tmp.size) :
    ∀ {ts : List UInt8} {js : List Tree}, Elements LenientNumber ts js →
      ReadsElements libc cfg json ts js
  | _, _, .one hw h hw' => reads_one hw (reads_text hsize h) hw'
  | _, _, .more hw h hw' hs => reads_more hw (reads_text hsize h) hw' (elements_text hsize hs)

theorem members_text (hsize : 0 ≤ json.tmp.size) :
    ∀ {ts : List UInt8} {ms : List (List UInt8 × Tree)}, Members LenientNumber ts ms →
      ReadsMembers libc cfg json ts ms
  | _, _, .one h => reads_oneMember (member_text hsize h)
  | _, _, .more h hs => reads_moreMembers (member_text hsize h) (members_text hsize hs)

theorem member_text (hsize : 0 ≤ json.tmp.size) :
    ∀ {m : List UInt8} {e : List UInt8 × Tree}, Member LenientNumber m e →
      ReadsMember libc cfg json m e
  | _, _, .mk hw hk hw' hv h hw'' => reads_member hsize hw hk hw' hv (reads_text hsize h) hw''

end

end Luaxx.Json
