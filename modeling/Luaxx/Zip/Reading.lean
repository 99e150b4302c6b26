import Luaxx.Zip.Luazip

/-!
# The lines that `read_line` gives

Of a line only what is in the last buffer is kept, and the byte after a `\r` is skipped whatever it
is. The lines are those of the content exactly if no line fills a buffer and the skipped byte is
never missed.
-/

namespace Luaxx.Zip

open Luaxx.Auxlib Luaxx.Lines

variable {LUAL_BUFFERSIZE : Nat} {fuel n : Nat} {l s f : List UInt8} {ls : List (List UInt8)}

/-! ## One call -/

/-- What is left of a line when the full buffers are lost. -/
def kept (LUAL_BUFFERSIZE : Nat) (l : List UInt8) : List UInt8 :=
  l.drop (l.length / LUAL_BUFFERSIZE * LUAL_BUFFERSIZE)

theorem kept_short (h : l.length < LUAL_BUFFERSIZE) : kept LUAL_BUFFERSIZE l = l := by
  rw [kept, Nat.div_eq_of_lt h, Nat.zero_mul, List.drop_zero]

theorem length_kept (l : List UInt8) :
    (kept LUAL_BUFFERSIZE l).length = l.length % LUAL_BUFFERSIZE := by
  have hdiv := Nat.div_add_mod' l.length LUAL_BUFFERSIZE
  rw [kept, List.length_drop]
  omega

theorem kept_eq_iff (hB : 0 < LUAL_BUFFERSIZE) :
    kept LUAL_BUFFERSIZE l = l ↔ l.length < LUAL_BUFFERSIZE := by
  refine ⟨fun h => ?_, kept_short⟩
  have hlen : (kept LUAL_BUFFERSIZE l).length = l.length % LUAL_BUFFERSIZE := length_kept l
  rw [h] at hlen
  rw [hlen]
  exact Nat.mod_lt _ hB

/-- The first buffer of a long line is lost. -/
theorem kept_drop (hB : 0 < LUAL_BUFFERSIZE) (h : LUAL_BUFFERSIZE ≤ l.length) :
    kept LUAL_BUFFERSIZE (l.drop LUAL_BUFFERSIZE) = kept LUAL_BUFFERSIZE l := by
  have hdiv : l.length / LUAL_BUFFERSIZE = (l.length - LUAL_BUFFERSIZE) / LUAL_BUFFERSIZE + 1 :=
    Nat.div_eq_sub_div hB h
  rw [kept, kept, List.length_drop, List.drop_drop, hdiv, Nat.succ_mul, Nat.add_comm]

theorem fill_plain (hl : Plain l) (hn : l.length ≤ n) (buff : List UInt8) (read_something : Bool)
    (f : List UInt8) :
    fill n buff read_something (l ++ f) =
      fill (n - l.length) (buff ++ l) (read_something || !l.isEmpty) f := by
  induction l generalizing n buff read_something with
  | nil => rw [List.nil_append, List.append_nil, List.isEmpty_nil, Bool.not_true, Bool.or_false]; rfl
  | cons c l ih =>
    obtain ⟨hc, hl⟩ := List.forall_mem_cons.1 hl
    rw [isPlain, decide_eq_true_eq] at hc
    obtain ⟨n, rfl⟩ := Nat.exists_eq_add_of_le' (Nat.le_trans (Nat.succ_pos l.length) hn)
    have hstop : ¬ (true = false ∨ c = carriageReturn ∨ c = newline) := by
      rintro (hread | hr | hn)
      · cases hread
      · exact hc.2 hr
      · exact hc.1 hn
    rw [List.length_cons] at hn
    rw [List.cons_append, fill, zzip_read]
    dsimp only
    rw [if_neg hstop, ih hl (by omega), List.append_assoc, List.singleton_append, List.length_cons,
      List.isEmpty_cons, Bool.not_false, Bool.or_true, Bool.true_or]
    congr 1
    omega

/-- The file is at its end, or at that of a line. -/
def Stops (f : List UInt8) : Prop := ∀ c, f.head? = some c → c = carriageReturn ∨ c = newline

theorem fill_stops (hf : Stops f) (buff : List UInt8) (read_something : Bool) :
    fill (n + 1) buff read_something f = .ended buff read_something (f.headD 0) f.tail := by
  cases f with
  | nil => rfl
  | cons c f =>
    rw [fill, zzip_read]
    dsimp only
    rw [if_pos (.inr (hf c rfl))]
    rfl

theorem read_line_ended {read_something rs : Bool} {buff f' : List UInt8} {c : UInt8}
    (h : fill LUAL_BUFFERSIZE [] read_something f = .ended buff rs c f') :
    read_line LUAL_BUFFERSIZE (fuel + 1) read_something (luaL_buffinit []) f =
      finish LUAL_BUFFERSIZE (luaL_buffinit []) buff rs c f' := by
  have hprep : luaL_prepbuffer LUA_MINSTACK (luaL_buffinit []) = some (luaL_buffinit []) := rfl
  rw [read_line, hprep, Option.bind_eq_bind, Option.bind_some, h]

theorem read_line_full {read_something rs : Bool} {f' : List UInt8}
    (h : fill LUAL_BUFFERSIZE [] read_something f = .full rs f') :
    read_line LUAL_BUFFERSIZE (fuel + 1) read_something (luaL_buffinit []) f =
      read_line LUAL_BUFFERSIZE fuel rs (luaL_buffinit []) f' := by
  have hprep : luaL_prepbuffer LUA_MINSTACK (luaL_buffinit []) = some (luaL_buffinit []) := rfl
  rw [read_line, hprep, Option.bind_eq_bind, Option.bind_some, h]

/-- The induction is on the buffers that the line fills. -/
theorem read_line_run (hB : 0 < LUAL_BUFFERSIZE) (hl : Plain l) (hf : Stops f)
    (hfuel : l.length < fuel) (read_something : Bool) :
    read_line LUAL_BUFFERSIZE fuel read_something (luaL_buffinit []) (l ++ f) =
      finish LUAL_BUFFERSIZE (luaL_buffinit []) (kept LUAL_BUFFERSIZE l)
        (read_something || !l.isEmpty) (f.headD 0) f.tail := by
  induction fuel generalizing l read_something with
  | zero => exact absurd hfuel (Nat.not_lt_zero _)
  | succ fuel ih =>
    by_cases hshort : l.length < LUAL_BUFFERSIZE
    · obtain ⟨m, hm⟩ : ∃ m, LUAL_BUFFERSIZE - l.length = m + 1 :=
        Nat.exists_eq_succ_of_ne_zero (by omega)
      rw [kept_short hshort]
      apply read_line_ended
      rw [fill_plain hl (Nat.le_of_lt hshort), hm, fill_stops hf, List.nil_append]
    · have hlong : LUAL_BUFFERSIZE ≤ l.length := Nat.not_lt.1 hshort
      have htake : (l.take LUAL_BUFFERSIZE).length = LUAL_BUFFERSIZE :=
        List.length_take_of_le hlong
      have hdrop : (l.drop LUAL_BUFFERSIZE).length = l.length - LUAL_BUFFERSIZE := List.length_drop
      have hne : l.isEmpty = false := by
        cases l with
        | nil => exact absurd hlong (Nat.not_le.2 hB)
        | cons c l => rfl
      have htakene : (l.take LUAL_BUFFERSIZE).isEmpty = false := by
        cases htake' : l.take LUAL_BUFFERSIZE with
        | nil =>
          rw [htake'] at htake
          exact absurd htake (Nat.ne_of_lt hB)
        | cons c l => rfl
      have hfill : fill LUAL_BUFFERSIZE [] read_something (l ++ f) =
          .full true (l.drop LUAL_BUFFERSIZE ++ f) := by
        conv_lhs => rw [← List.take_append_drop LUAL_BUFFERSIZE l, List.append_assoc]
        rw [fill_plain (fun c hc => hl c (List.mem_of_mem_take hc)) (Nat.le_of_eq htake), htake,
          Nat.sub_self, htakene, Bool.not_false, Bool.or_true, fill]
      rw [read_line_full hfill, ih (fun c hc => hl c (List.mem_of_mem_drop hc)) (by omega),
        kept_drop hB hlong, hne, Bool.true_or, Bool.not_false, Bool.or_true]

theorem finish_run {buff : List UInt8} (hbuff : buff.length ≤ LUAL_BUFFERSIZE)
    (read_something : Bool) (c : UInt8) (f : List UInt8) :
    finish LUAL_BUFFERSIZE (luaL_buffinit []) buff read_something c f =
      (let (c, f) := if c = carriageReturn then (zzip_read c f).2 else (c, f)
      some ((buff, read_something || c = carriageReturn || c = newline), f)) := by
  have hadd : luaL_addsize LUAL_BUFFERSIZE (luaL_buffinit []) buff = some ⟨[], 0, buff⟩ := by
    rw [luaL_addsize, luaL_buffinit, if_pos (by rw [List.length_nil, Nat.zero_add]; exact hbuff)]
    rfl
  rw [finish, hadd, Option.bind_eq_bind, Option.bind_some]
  cases buff <;> rfl

/-- A call that reads a line and what stops it. -/
theorem zip_readline_run (hB : 0 < LUAL_BUFFERSIZE) (hl : Plain l) (hf : Stops f)
    (hfuel : l.length < fuel) :
    zip_readline LUAL_BUFFERSIZE fuel (l ++ f) =
      (let (c, f') := if f.headD 0 = carriageReturn then (zzip_read (f.headD 0) f.tail).2
        else (f.headD 0, f.tail)
      some (if !l.isEmpty || c = carriageReturn || c = newline then some (kept LUAL_BUFFERSIZE l)
        else none, f')) := by
  have hlen : (kept LUAL_BUFFERSIZE l).length ≤ LUAL_BUFFERSIZE := by
    rw [length_kept]
    exact Nat.le_of_lt (Nat.mod_lt _ hB)
  rw [zip_readline, read_line_run hB hl hf hfuel, finish_run hlen, Bool.false_or]
  rfl

theorem stops_nil : Stops [] := by
  rintro c ⟨⟩

theorem stops_return (f : List UInt8) : Stops (carriageReturn :: f) := by
  rintro c ⟨⟩
  exact .inl rfl

theorem stops_newline (f : List UInt8) : Stops (newline :: f) := by
  rintro c ⟨⟩
  exact .inr rfl

section

variable (hB : 0 < LUAL_BUFFERSIZE)
include hB

theorem zip_readline_nil (hfuel : 0 < fuel) :
    zip_readline LUAL_BUFFERSIZE fuel [] = some (none, []) :=
  zip_readline_run hB plain_nil stops_nil hfuel

theorem zip_readline_last (hl : Plain l) (hne : l ≠ []) (hfuel : l.length < fuel) :
    zip_readline LUAL_BUFFERSIZE fuel l = some (some (kept LUAL_BUFFERSIZE l), []) := by
  have h := zip_readline_run hB hl stops_nil hfuel
  rw [List.append_nil] at h
  rw [h]
  cases l with
  | nil => exact absurd rfl hne
  | cons c l => rfl

theorem zip_readline_newline (hl : Plain l) (hfuel : l.length < fuel) (f : List UInt8) :
    zip_readline LUAL_BUFFERSIZE fuel (l ++ newline :: f) =
      some (some (kept LUAL_BUFFERSIZE l), f) := by
  rw [zip_readline_run hB hl (stops_newline f) hfuel]
  cases l <;> rfl

theorem zip_readline_ended (hl : Plain l) (hfuel : l.length < fuel) :
    zip_readline LUAL_BUFFERSIZE fuel (l ++ [carriageReturn]) =
      some (some (kept LUAL_BUFFERSIZE l), []) := by
  rw [zip_readline_run hB hl (stops_return []) hfuel]
  cases l <;> rfl

/-- After a `\r` any byte is skipped; a call that has read nothing else fails but for a line end. -/
theorem zip_readline_return (hl : Plain l) (hfuel : l.length < fuel) (c : UInt8) (f : List UInt8) :
    zip_readline LUAL_BUFFERSIZE fuel (l ++ carriageReturn :: c :: f) =
      some (if l = [] ∧ isPlain c then none else some (kept LUAL_BUFFERSIZE l), f) := by
  rw [zip_readline_run hB hl (stops_return (c :: f)) hfuel]
  show some (if (!l.isEmpty || c = carriageReturn || c = newline) = true then _ else _, f) = _
  have hcond : (!l.isEmpty || c = carriageReturn || c = newline) = true ↔
      ¬ (l = [] ∧ isPlain c) := by
    rw [isPlain]
    cases l with
    | nil => simp; grind
    | cons x l => simp
  by_cases h : l = [] ∧ isPlain c
  · rw [if_pos h, if_neg (fun hc => hcond.1 hc h)]
  · rw [if_neg h, if_pos (hcond.2 h)]

end

/-! ## Many calls -/

/-- What the calls give for these lines: one after the other, and then nothing. -/
def expected (ls : List (List UInt8)) (n : Nat) : List (Option (List UInt8)) :=
  (ls.map some).take n ++ List.replicate (n - ls.length) none

/-- Any number of calls gives these lines, of which none is left at the end of the file. -/
def Yields (LUAL_BUFFERSIZE fuel : Nat) (ls : List (List UInt8)) (f : List UInt8) : Prop :=
  ∀ n, ∃ f', calls LUAL_BUFFERSIZE fuel n f = some (expected ls n, f') ∧
    (ls.length ≤ n → f' = [])

theorem calls_succ {line : Option (List UInt8)}
    (h : zip_readline LUAL_BUFFERSIZE fuel s = some (line, f)) (n : Nat) :
    calls LUAL_BUFFERSIZE fuel (n + 1) s =
      (calls LUAL_BUFFERSIZE fuel n f).map fun r => (line :: r.1, r.2) := by
  rw [calls, h, Option.bind_eq_bind, Option.bind_some]
  dsimp only
  cases calls LUAL_BUFFERSIZE fuel n f <;> rfl

theorem expected_zero (ls : List (List UInt8)) : expected ls 0 = [] := by
  rw [expected, List.take_zero, Nat.zero_sub]
  rfl

theorem expected_nil (n : Nat) : expected [] n = List.replicate n none := by
  rw [expected, List.map_nil, List.take_nil, List.nil_append, List.length_nil, Nat.sub_zero]

theorem expected_cons (l : List UInt8) (ls : List (List UInt8)) (n : Nat) :
    expected (l :: ls) (n + 1) = some l :: expected ls n := by
  rw [expected, expected, List.map_cons, List.take_succ_cons, List.length_cons,
    Nat.add_sub_add_right, List.cons_append]

theorem yields_nil (hB : 0 < LUAL_BUFFERSIZE) (hfuel : 0 < fuel) :
    Yields LUAL_BUFFERSIZE fuel [] [] := by
  intro n
  refine ⟨[], ?_, fun _ => rfl⟩
  rw [expected_nil]
  induction n with
  | zero => rfl
  | succ n ih =>
    rw [calls_succ (zip_readline_nil hB hfuel), ih]
    rfl

/-- The first call gives the first line, and the next ones the others. -/
theorem yields_cons {line : Option (List UInt8)}
    (h : zip_readline LUAL_BUFFERSIZE fuel s = some (line, f)) :
    Yields LUAL_BUFFERSIZE fuel (l :: ls) s ↔
      line = some l ∧ Yields LUAL_BUFFERSIZE fuel ls f := by
  constructor
  · intro hyields
    have hnext (n : Nat) : ∃ f', (calls LUAL_BUFFERSIZE fuel n f).map (fun r => (line :: r.1, r.2)) =
        some (some l :: expected ls n, f') ∧ (ls.length ≤ n → f' = []) := by
      obtain ⟨f', hcalls, hend⟩ := hyields (n + 1)
      rw [calls_succ h, expected_cons] at hcalls
      exact ⟨f', hcalls, fun hn => hend (Nat.succ_le_succ hn)⟩
    have hsplit (n : Nat) : line = some l ∧
        ∃ f', calls LUAL_BUFFERSIZE fuel n f = some (expected ls n, f') ∧
          (ls.length ≤ n → f' = []) := by
      obtain ⟨f', hcalls, hend⟩ := hnext n
      obtain ⟨⟨results, f''⟩, hrun, heq⟩ := Option.map_eq_some_iff.1 hcalls
      cases heq
      exact ⟨rfl, f'', hrun, hend⟩
    exact ⟨(hsplit 0).1, fun n => (hsplit n).2⟩
  · rintro ⟨rfl, hyields⟩ n
    cases n with
    | zero =>
      rw [expected_zero]
      exact ⟨s, rfl, fun hn => absurd hn (Nat.not_succ_le_zero _)⟩
    | succ n =>
      obtain ⟨f', hcalls, hend⟩ := hyields n
      refine ⟨f', ?_, fun hn => hend (Nat.le_of_succ_le_succ hn)⟩
      rw [calls_succ h, hcalls, expected_cons]
      rfl

/-! ## Bytes that are missed -/

/-- The lines that were given. -/
def given (results : List (Option (List UInt8))) : List (List UInt8) := results.filterMap id

theorem given_expected (ls : List (List UInt8)) : given (expected ls ls.length) = ls := by
  rw [given, expected, Nat.sub_self, List.replicate_zero, List.append_nil,
    ← List.length_map (f := some), List.take_length, List.filterMap_map]
  exact List.filterMap_some

/-- The calls give no line and no byte that the file does not have. -/
theorem given_le (hB : 0 < LUAL_BUFFERSIZE) (n : Nat) {results : List (Option (List UInt8))}
    (hfuel : s.length < fuel) (h : calls LUAL_BUFFERSIZE fuel n s = some (results, f)) :
    (given results).length ≤ (lines s).length ∧
      (given results).flatten.length ≤ (s.filter isPlain).length := by
  induction n generalizing s results with
  | zero =>
    cases h
    exact ⟨Nat.zero_le _, Nat.zero_le _⟩
  | succ n ih =>
    -- a call without a result, or one whose line is at most the first one
    have hnone {t : List UInt8} (hcall : zip_readline LUAL_BUFFERSIZE fuel s = some (none, t))
        (ht : t.length ≤ s.length) (hlines : (lines t).length ≤ (lines s).length)
        (hbytes : (t.filter isPlain).length ≤ (s.filter isPlain).length) :
        (given results).length ≤ (lines s).length ∧
          (given results).flatten.length ≤ (s.filter isPlain).length := by
      rw [calls_succ hcall] at h
      obtain ⟨⟨results', f'⟩, hrun, heq⟩ := Option.map_eq_some_iff.1 h
      cases heq
      obtain ⟨hcount, hlength⟩ := ih (Nat.lt_of_le_of_lt ht hfuel) hrun
      exact ⟨Nat.le_trans hcount hlines, Nat.le_trans hlength hbytes⟩
    have hsome {l t : List UInt8}
        (hcall : zip_readline LUAL_BUFFERSIZE fuel s = some (some (kept LUAL_BUFFERSIZE l), t))
        (ht : t.length ≤ s.length) (hlines : (lines t).length + 1 ≤ (lines s).length)
        (hbytes : l.length + (t.filter isPlain).length ≤ (s.filter isPlain).length) :
        (given results).length ≤ (lines s).length ∧
          (given results).flatten.length ≤ (s.filter isPlain).length := by
      rw [calls_succ hcall] at h
      obtain ⟨⟨results', f'⟩, hrun, heq⟩ := Option.map_eq_some_iff.1 h
      cases heq
      obtain ⟨hcount, hlength⟩ := ih (Nat.lt_of_le_of_lt ht hfuel) hrun
      have hgiven : given (some (kept LUAL_BUFFERSIZE l) :: results') =
          kept LUAL_BUFFERSIZE l :: given results' := rfl
      have hkept : (kept LUAL_BUFFERSIZE l).length ≤ l.length := by
        rw [length_kept]
        exact Nat.mod_le _ _
      rw [hgiven, List.length_cons, List.flatten_cons, List.length_append]
      exact ⟨by omega, by omega⟩
    cases divided s with
    | nil => exact hnone (zip_readline_nil hB hfuel) (Nat.le_refl _) (Nat.le_refl _) (Nat.le_refl _)
    | last hl hne =>
      refine hsome (zip_readline_last hB hl hne hfuel) (Nat.zero_le _) ?_ ?_
      · rw [lines_last hl hne]
        exact Nat.le_refl _
      · rw [filter_plain hl]
        exact Nat.le_refl _
    | newline hl t =>
      rw [List.length_append, List.length_cons] at hfuel
      refine hsome (zip_readline_newline hB hl (by omega) t) ?_ ?_ ?_
      · rw [List.length_append, List.length_cons]
        omega
      · rw [lines_newline hl]
        exact Nat.le_refl _
      · rw [(filter_ends hl t).1, List.length_append]
    | crlf hl t =>
      rw [List.length_append, List.length_cons, List.length_cons] at hfuel
      have hcall := @zip_readline_return _ fuel _ hB hl (by omega) newline t
      rw [if_neg (by rintro ⟨-, ⟨⟩⟩)] at hcall
      refine hsome hcall ?_ ?_ ?_
      · rw [List.length_append, List.length_cons, List.length_cons]
        omega
      · rw [lines_crlf hl]
        exact Nat.le_refl _
      · rw [(filter_ends hl (newline :: t)).2, List.length_append]
        exact Nat.le_refl _
    | ended hl =>
      rw [List.length_append, List.length_singleton] at hfuel
      refine hsome (zip_readline_ended hB hl (by omega)) (Nat.zero_le _) ?_ ?_
      · rw [lines_return hl (by rintro ⟨⟩)]
        exact Nat.le_refl _
      · rw [(filter_ends hl []).2, List.length_append]
    | @lone l hl c hc t =>
      rw [List.length_append, List.length_cons, List.length_cons] at hfuel
      have hcall := @zip_readline_return _ fuel _ hB hl (by omega) c t
      have hs : (c :: t).head? ≠ some newline := fun h => hc (Option.some.inj h)
      have ht : t.length ≤ (l ++ carriageReturn :: c :: t).length := by
        rw [List.length_append, List.length_cons, List.length_cons]
        omega
      have hlines : (lines t).length + 1 ≤ (lines (l ++ carriageReturn :: c :: t)).length := by
        rw [lines_return hl hs, List.length_cons]
        exact Nat.succ_le_succ (length_lines_le c t)
      have hbytes : l.length + (t.filter isPlain).length ≤
          ((l ++ carriageReturn :: c :: t).filter isPlain).length := by
        rw [(filter_ends hl (c :: t)).2, List.length_append]
        exact Nat.add_le_add_left (List.Sublist.length_le ((List.sublist_cons_self c t).filter _)) _
      by_cases hempty : l = [] ∧ isPlain c
      · rw [if_pos hempty] at hcall
        exact hnone hcall ht (by omega) (by omega)
      · rw [if_neg hempty] at hcall
        exact hsome hcall ht hlines hbytes

/-- What is given is at most what is there. -/
theorem Yields.le (hB : 0 < LUAL_BUFFERSIZE) (hfuel : s.length < fuel)
    (h : Yields LUAL_BUFFERSIZE fuel ls s) :
    ls.length ≤ (lines s).length ∧ ls.flatten.length ≤ (s.filter isPlain).length := by
  obtain ⟨f', hcalls, -⟩ := h ls.length
  have hle := given_le hB ls.length hfuel hcalls
  rw [given_expected] at hle
  exact hle

/-! ## When the lines are right -/

/-- What follows a `\r` is missed by no call: nothing, the `\n` of its line, or a `\r\n`. -/
def Harmless (s : List UInt8) : Prop :=
  s = [] ∨ s.head? = some newline ∨ ∃ t, s = carriageReturn :: newline :: t

def Followed (s : List UInt8) : Prop :=
  ∀ s₁ s₂, s = s₁ ++ carriageReturn :: s₂ → Harmless s₂

theorem followed_cons {c : UInt8} :
    Followed (c :: s) ↔ (c = carriageReturn → Harmless s) ∧ Followed s := by
  refine ⟨fun h => ⟨?_, fun s₁ s₂ heq => h (c :: s₁) s₂ (by rw [heq, List.cons_append])⟩, ?_⟩
  · rintro rfl
    exact h [] s rfl
  · rintro ⟨hhead, htail⟩ s₁ s₂ heq
    cases s₁ with
    | nil =>
      cases heq
      exact hhead rfl
    | cons d s₁ =>
      rw [List.cons_append] at heq
      exact htail s₁ s₂ (List.cons.inj heq).2

theorem followed_plain (hl : Plain l) : Followed (l ++ s) ↔ Followed s := by
  induction l with
  | nil => rfl
  | cons c l ih =>
    obtain ⟨hc, hl⟩ := List.forall_mem_cons.1 hl
    rw [isPlain, decide_eq_true_eq] at hc
    rw [List.cons_append, followed_cons, ih hl]
    exact ⟨fun h => h.2, fun h => ⟨fun hr => absurd hr hc.2, h⟩⟩

theorem followed_nil : Followed [] := by
  intro s₁ s₂ heq
  exact absurd heq (List.ne_nil_of_length_pos (by
    rw [List.length_append, List.length_cons]
    omega)).symm

theorem followed_newline (hl : Plain l) : Followed (l ++ newline :: s) ↔ Followed s := by
  rw [followed_plain hl, followed_cons]
  exact ⟨fun h => h.2, fun h => ⟨by rintro ⟨⟩, h⟩⟩

theorem followed_return (hl : Plain l) :
    Followed (l ++ carriageReturn :: s) ↔ Harmless s ∧ Followed s := by
  rw [followed_plain hl, followed_cons]
  exact ⟨fun h => ⟨h.1 rfl, h.2⟩, fun h => ⟨fun _ => h.1, h.2⟩⟩

/-- Every line is in one buffer. -/
def Short (LUAL_BUFFERSIZE : Nat) (s : List UInt8) : Prop := ∀ l ∈ lines s, l.length < LUAL_BUFFERSIZE

theorem short_cons (h : lines s = l :: lines f) :
    Short LUAL_BUFFERSIZE s ↔ l.length < LUAL_BUFFERSIZE ∧ Short LUAL_BUFFERSIZE f := by
  rw [Short, h]
  exact List.forall_mem_cons

/-- The byte that is skipped is missed: a byte or a line is then too few. -/
theorem not_yields_skipped (hB : 0 < LUAL_BUFFERSIZE) (hfuel : s.length < fuel) {c : UInt8}
    (hc : c ≠ newline) (hmissed : ¬ Harmless (c :: s)) :
    ¬ Yields LUAL_BUFFERSIZE fuel (lines (c :: s)) s := by
  intro hyields
  obtain ⟨hcount, hlength⟩ := hyields.le hB hfuel
  by_cases hr : c = carriageReturn
  · subst hr
    have hs : s.head? ≠ some newline := by
      intro hs
      obtain ⟨t, rfl⟩ := List.head?_eq_some_iff.1 hs
      exact hmissed (.inr (.inr ⟨t, rfl⟩))
    have hlines : lines (carriageReturn :: s) = [] :: lines s := linesFrom_return [] hs
    rw [hlines, List.length_cons] at hcount
    omega
  · have hplain : isPlain c := decide_eq_true ⟨hc, hr⟩
    rw [flatten_lines, List.filter_cons_of_pos hplain, List.length_cons] at hlength
    omega

theorem yields_iff (hB : 0 < LUAL_BUFFERSIZE) (hfuel : s.length < fuel) :
    Yields LUAL_BUFFERSIZE fuel (lines s) s ↔ Short LUAL_BUFFERSIZE s ∧ Followed s := by
  induction hlen : s.length using Nat.strongRecOn generalizing s with
  | ind n ih =>
    -- the call and the text go on alike
    have halike {l t : List UInt8}
        (hcall : zip_readline LUAL_BUFFERSIZE fuel s = some (some (kept LUAL_BUFFERSIZE l), t))
        (ht : t.length < s.length) (hlines : lines s = l :: lines t)
        (hfollowed : Followed s ↔ Followed t) :
        Yields LUAL_BUFFERSIZE fuel (lines s) s ↔ Short LUAL_BUFFERSIZE s ∧ Followed s := by
      rw [hlines, yields_cons hcall, ih t.length (hlen ▸ ht) (Nat.lt_trans ht hfuel) rfl,
        short_cons hlines, hfollowed, Option.some_inj, kept_eq_iff hB, and_assoc]
    cases divided s with
    | nil =>
      exact ⟨fun _ => ⟨by rintro l ⟨⟩, followed_nil⟩, fun _ => yields_nil hB hfuel⟩
    | last hl hne =>
      have hfollowed := @followed_plain s [] hl
      rw [List.append_nil] at hfollowed
      exact halike (zip_readline_last hB hl hne hfuel) (List.length_pos_of_ne_nil hne)
        (lines_last hl hne) hfollowed
    | newline hl t =>
      rw [List.length_append, List.length_cons] at hfuel
      refine halike (zip_readline_newline hB hl (by omega) t) ?_ (lines_newline hl t)
        (followed_newline hl)
      rw [List.length_append, List.length_cons]
      omega
    | crlf hl t =>
      rw [List.length_append, List.length_cons, List.length_cons] at hfuel
      have hcall := @zip_readline_return _ fuel _ hB hl (by omega) newline t
      rw [if_neg (by rintro ⟨-, ⟨⟩⟩)] at hcall
      refine halike hcall ?_ (lines_crlf hl t) ?_
      · rw [List.length_append, List.length_cons, List.length_cons]
        omega
      · rw [followed_return hl, followed_cons]
        exact ⟨fun h => h.2.2, fun h => ⟨.inr (.inl rfl), by rintro ⟨⟩, h⟩⟩
    | ended hl =>
      rw [List.length_append, List.length_singleton] at hfuel
      refine halike (zip_readline_ended hB hl (by omega)) ?_ (lines_return hl (by rintro ⟨⟩)) ?_
      · rw [List.length_append, List.length_singleton]
        exact Nat.succ_pos _
      · rw [followed_return hl]
        exact ⟨fun h => h.2, fun h => ⟨.inl rfl, h⟩⟩
    | @lone l hl c hc t =>
      rw [List.length_append, List.length_cons, List.length_cons] at hfuel
      have hcall := @zip_readline_return _ fuel _ hB hl (by omega) c t
      have hs : (c :: t).head? ≠ some newline := fun h => hc (Option.some.inj h)
      by_cases hharmless : Harmless (c :: t)
      · -- only a carriage return before `\r\n` is skipped without harm
        obtain ⟨t, heq⟩ := (hharmless.resolve_left (List.cons_ne_nil c t)).resolve_left hs
        cases heq
        rw [if_neg (by rintro ⟨-, ⟨⟩⟩)] at hcall
        have hsame : lines (carriageReturn :: newline :: t) = lines (newline :: t) :=
          (linesFrom_crlf [] t).trans (linesFrom_newline [] t).symm
        refine halike hcall ?_ ((lines_return hl hs).trans (by rw [hsame])) ?_
        · rw [List.length_append, List.length_cons, List.length_cons, List.length_cons,
            List.length_cons]
          omega
        · rw [followed_return hl, followed_cons]
          exact ⟨fun h => h.2.2, fun h => ⟨hharmless, fun _ => .inr (.inl rfl), h⟩⟩
      · constructor
        · intro hyields
          rw [lines_return hl hs, yields_cons hcall] at hyields
          exact absurd hyields.2 (not_yields_skipped hB (by omega) hc hharmless)
        · rintro ⟨-, hfollowed⟩
          exact absurd ((followed_return hl).1 hfollowed).1 hharmless

/-- A line, an empty line, a `\r` of its own and a line without an end. -/
theorem yields_iff_ends :
    Yields 512 100 (lines [97, 13, 10, 10, 13, 13, 10, 98]) [97, 13, 10, 10, 13, 13, 10, 98] ∧
      lines [97, 13, 10, 10, 13, 13, 10, 98] = [[97], [], [], [], [98]] := by
  have hlines : lines [97, 13, 10, 10, 13, 13, 10, 98] = [[97], [], [], [], [98]] := by decide
  have hplain {c : UInt8} {s : List UInt8} (hc : c ≠ carriageReturn) (hs : Followed s) :
      Followed (c :: s) := followed_cons.2 ⟨fun h => absurd h hc, hs⟩
  have hend : Followed [13, 10, 98] := followed_cons.2
    ⟨fun _ => .inr (.inl rfl), hplain (by decide) (hplain (by decide) followed_nil)⟩
  have hmiddle : Followed [13, 13, 10, 98] :=
    followed_cons.2 ⟨fun _ => .inr (.inr ⟨[98], rfl⟩), hend⟩
  have hstart : Followed [13, 10, 10, 13, 13, 10, 98] := followed_cons.2
    ⟨fun _ => .inr (.inl rfl), hplain (by decide) (hplain (by decide) hmiddle)⟩
  refine ⟨(yields_iff (by decide) (by decide)).2 ⟨?_, hplain (by decide) hstart⟩, hlines⟩
  rw [Short, hlines]
  decide

/-- The byte after a `\r`, and a line of the length of the buffer. -/
theorem lines_missed :
    ¬ Yields 512 1000 (lines [97, 13, 98, 10]) [97, 13, 98, 10] ∧
      ¬ Yields 512 1000 (lines (List.replicate 512 97 ++ [10])) (List.replicate 512 97 ++ [10]) := by
  have hlen : (List.replicate 512 (97 : UInt8) ++ [10]).length = 513 := by
    rw [List.length_append, List.length_replicate]
    rfl
  constructor
  · rw [yields_iff (by decide) (by decide)]
    rintro ⟨-, hfollowed⟩
    rcases hfollowed [97] [98, 10] rfl with hnil | hhead | ⟨t, hskip⟩
    · cases hnil
    · exact absurd hhead (by decide)
    · cases hskip
  · rw [yields_iff (by decide) (by rw [hlen]; decide)]
    rintro ⟨hshort, -⟩
    have hplain : Plain (List.replicate 512 97) := by
      intro c hc
      rw [List.eq_of_mem_replicate hc]
      rfl
    have hmem : List.replicate 512 97 ∈ lines (List.replicate 512 97 ++ [10]) := by
      rw [show [10] = newline :: [] from rfl, lines_newline hplain]
      exact List.mem_cons_self
    have hlt := hshort _ hmem
    rw [List.length_replicate] at hlt
    exact Nat.lt_irrefl _ hlt

end Luaxx.Zip
