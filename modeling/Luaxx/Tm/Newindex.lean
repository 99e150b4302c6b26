import Luaxx.Tm.Cache

/-!
# Assignments and `__newindex`

What an assignment is to do is decided by what the tables hold: a table with an entry for the key, or
without `__newindex`, takes the store, and otherwise its tag method is called or the assignment goes
on with it. `luaV_settable` takes a place for the key in every table on the way before it asks for
the tag method. The place is not seen, but a table that refuses the key ends the assignment.
-/

namespace Luaxx.Tm

open Luaxx.Tables Luaxx.Result

/-- Where an assignment ends: a store into a table, or something else. -/
inductive Target where
  | table (h : Nat)
  | ends (s : Settled)
  deriving DecidableEq, Repr

section

variable (tmname : TMS → Nat) (H : Heap) (key : Value)

/-- What a table holds under a key. -/
def raw (h : Nat) (k : Value) : Value := value H.hashes (H.table h) k

/-- The tag methods are asked before anything is stored. -/
def consult : Nat → Value → Target
  | 0, _ => .ends (.error "loop in settable")
  | loop + 1, t =>
    match t with
    | .object .table h =>
      if (raw H h key).ttisnil then
        match uncached tmname H (H.metatable t) .TM_NEWINDEX with
        | none => .table h
        | some (.object .function f) => .ends (.callTM (.object .function f) t)
        | some tm => consult loop tm
      else .table h
    | _ =>
      match luaT_gettmbyobj tmname H t .TM_NEWINDEX with
      | .nil => .ends (.typeerror t "index")
      | .object .function f => .ends (.callTM (.object .function f) t)
      | tm => consult loop tm

/-- The tables on the way that have a tag method. -/
def passed : Nat → Value → List Nat
  | 0, _ => []
  | loop + 1, t =>
    match t with
    | .object .table h =>
      if (raw H h key).ttisnil then
        match uncached tmname H (H.metatable t) .TM_NEWINDEX with
        | none => []
        | some (.object .function _) => [h]
        | some tm => h :: passed loop tm
      else []
    | _ =>
      match luaT_gettmbyobj tmname H t .TM_NEWINDEX with
      | .nil => []
      | .object .function _ => []
      | tm => passed loop tm

/-- The key is nil or NaN, or there is no room for it. -/
def Refuses (h : Nat) : Prop :=
  ¬ key.IsKey ∨ luaH_set H.hashes (H.table h) key = .error tableOverflow

/-- All tables hold the same. -/
def SameContents (H' : Heap) : Prop := ∀ h k, raw H' h k = raw H h k

def keyError : Value → String
  | .nil => "table index is nil"
  | _ => "table index is NaN"

/-- A store into the table `h`, or the error that it raises. -/
def Primitive (v : Value) (h : Nat) (r : M (Settled × Heap)) : Prop :=
  (¬ key.IsKey ∧ ∃ H', r = .ok (.error (keyError key), H') ∧ SameContents H H') ∨
  (luaH_set H.hashes (H.table h) key = .error tableOverflow ∧ r = .error tableOverflow) ∨
  (key.IsKey ∧ ∃ H', r = .ok (.stored, H') ∧
    ∀ h' k, raw H' h' k = if h' = h ∧ Value.rawequal k key = true then v else raw H h' k)

/-- The assignment ends as it is to do, and changes nothing but by the store. -/
def Correct (loop : Nat) (t v : Value) (r : M (Settled × Heap)) : Prop :=
  match consult tmname H key loop t with
  | .table h => Primitive H key v h r
  | .ends s => ∃ H', r = .ok (s, H') ∧ SameContents H H'

end

variable {tmname : TMS → Nat} {H H' : Heap} {key t v : Value} {h : Nat}

/-! ## Places that are not seen -/

/-- A state in the course of the assignment: a table is as at first, or has a place for the key. -/
structure Later (tmname : TMS → Nat) (key : Value) (H H' : Heap) : Prop where
  coherent : Coherent tmname H'
  hashes : H'.hashes = H.hashes
  metatable : H'.metatable = H.metatable
  same : SameContents H H'
  table : ∀ h, (∃ flags, H'.table h = { H.table h with flags := flags }) ∨
    ((∃ p, luaH_get H'.hashes (H'.table h) key = some p) ∧ ¬ Refuses H key h)

theorem Later.refl (hc : Coherent tmname H) : Later tmname key H H :=
  ⟨hc, rfl, rfl, fun _ _ => rfl, fun _ => .inl ⟨_, rfl⟩⟩

theorem Later.getevent (hl : Later tmname key H H') (h : Nat) (e : TMS) :
    getevent tmname H' h e = getevent tmname H h e :=
  hl.same h (.string (tmname e))

theorem Later.uncached (hl : Later tmname key H H') (et : Option Nat) (e : TMS) :
    uncached tmname H' et e = uncached tmname H et e := by
  unfold Tm.uncached
  cases et with
  | none => rfl
  | some et => simp only [hl.getevent]

theorem Later.gettmbyobj (hl : Later tmname key H H') (o : Value) (e : TMS) :
    luaT_gettmbyobj tmname H' o e = luaT_gettmbyobj tmname H o e := by
  unfold luaT_gettmbyobj
  rw [hl.metatable]
  cases H.metatable o with
  | none => rfl
  | some mt => exact hl.getevent mt e

theorem Later.gfasttm (hl : Later tmname key H H') (et : Option Nat) (e : TMS) :
    Later tmname key H (gfasttm tmname H' et e).2 := by
  have hs := gfasttm_same tmname H' et e
  refine ⟨hl.coherent.gfasttm et e, hs.hashes.trans hl.hashes, ?_, ?_, ?_⟩
  · rw [← hl.metatable]
    unfold Tm.gfasttm luaT_gettm
    split
    · rfl
    · split_ifs
      · rfl
      · simp only
        split_ifs <;> rfl
  · intro h k
    obtain ⟨flags, htable⟩ := hs.table h
    rw [← hl.same h k, raw, htable, hs.hashes]
    rfl
  · intro h
    obtain ⟨flags, htable⟩ := hs.table h
    rcases hl.table h with ⟨old, heq⟩ | ⟨⟨p, hget⟩, hroom⟩
    · exact .inl ⟨flags, by rw [htable, heq]⟩
    · exact .inr ⟨⟨p, (hs.luaH_get h key).trans hget⟩, hroom⟩

/-! ## A place is taken -/

theorem luaH_set_isKey {hashes : Nat → UInt32} {t : Table} (h : Inv hashes t) (hkey : key.IsKey) :
    Yields (· = tableOverflow) (fun r => SetTo hashes t r.2 key r.1) (luaH_set hashes t key) := by
  rw [luaH_set]
  cases hget : luaH_get hashes t key with
  | some p => exact yields_of_eq (setWith_found hget) (SetTo.of_found h hget 0)
  | none =>
    have ha := absent_of_luaH_get h hkey hget
    rw [setWith_new hkey hget]
    exact (newkey_spec (h.flags 0) ⟨ha.isKey, ha.out, ha.node⟩ 1).imp fun r hr =>
      ⟨hr.inv, hr.slot, hr.value⟩

theorem luaH_set_not_key {hashes : Nat → UInt32} {t : Table} (h : Inv hashes t)
    (hproper : Value.isProper key) (hkey : ¬ key.IsKey) :
    luaH_set hashes t key = .error (.error (keyError key)) := by
  cases key with
  | nil => rfl
  | number n =>
    have hn : luai_numisnan n = true := by simpa [Value.IsKey] using hkey
    unfold luaH_set setWith
    rw [luaH_get_nan h hn]
    simp only [hn, if_true]
    rfl
  | deadkey p => cases hproper
  | _ => exact absurd trivial hkey

theorem Later.setKey_refused (hl : Later tmname key H H') (hproper : Value.isProper key)
    (hrefuses : Refuses H key h) :
    (¬ key.IsKey ∧ ∃ H₁, setKey H' h key = .ok (.inr (keyError key), H₁) ∧ SameContents H H₁) ∨
      (key.IsKey ∧ luaH_set H.hashes (H.table h) key = .error tableOverflow ∧
        setKey H' h key = .error tableOverflow) := by
  by_cases hkey : key.IsKey
  · right
    have hfull := hrefuses.resolve_left (not_not.mpr hkey)
    refine ⟨hkey, hfull, ?_⟩
    rcases hl.table h with ⟨flags, heq⟩ | ⟨-, hroom⟩
    · have hset : luaH_set H'.hashes (H'.table h) key = .error tableOverflow := by
        rw [hl.hashes, heq]
        exact hfull
      rw [setKey, hset]
      exact if_pos hkey
    · exact absurd hrefuses hroom
  · left
    have hset := luaH_set_not_key (hl.coherent.inv h) hproper hkey
    refine ⟨hkey, H'.setFlags h 0, ?_, ?_⟩
    · rw [setKey, hset]
      exact if_neg hkey
    · intro h' k
      obtain ⟨flags, htable⟩ := (sameTables_setFlags H' h 0).table h'
      rw [← hl.same h' k, raw, htable]
      rfl

theorem Later.setKey (hl : Later tmname key H H') (hroom : ¬ Refuses H key h) :
    ∃ p H₁, setKey H' h key = .ok (.inl p, H₁) ∧ Later tmname key H H₁ ∧
      luaH_get H₁.hashes (H₁.table h) key = some p := by
  obtain ⟨hkey, hfits⟩ := not_or.mp hroom
  rw [not_not] at hkey
  have hinv := hl.coherent.inv h
  have hspec := luaH_set_isKey hinv hkey
  cases hset : luaH_set H'.hashes (H'.table h) key with
  | error e =>
    rw [hset] at hspec
    obtain rfl : e = tableOverflow := hspec
    exfalso
    rcases hl.table h with ⟨flags, heq⟩ | ⟨⟨p, hget⟩, -⟩
    · rw [hl.hashes, heq] at hset
      exact hfits hset
    · rw [luaH_set, setWith_found hget] at hset
      cases hset
  | ok r =>
    obtain ⟨p, t1⟩ := r
    have hto : SetTo H'.hashes (H'.table h) t1 key p := hspec.ok_of_eq hset
    have heq : Tm.setKey H' h key = .ok (.inl p, H'.put h t1) := by
      rw [Tm.setKey, hset]
    refine ⟨p, _, heq, ⟨hl.coherent.put_zero hto.inv (luaH_set_flags hset), hl.hashes, hl.metatable,
      ?_, ?_⟩, ?_⟩
    · intro h' k
      rw [← hl.same h' k, raw, put_table, put_hashes]
      split_ifs with hh
      · rw [hto.value, hh]
        rfl
      · rfl
    · intro h'
      rw [put_table, put_hashes]
      split_ifs with hh
      · exact .inr ⟨⟨p, hto.slot⟩, hh ▸ hroom⟩
      · exact hl.table h'
    · rw [put_self, put_hashes]
      exact hto.slot

/-- The store through the place of the key. -/
theorem Later.store (hl : Later tmname key H H') {p : Slot} (hkey : key.IsKey)
    (hget : luaH_get H'.hashes (H'.table h) key = some p) :
    ∃ H₁, setobj2t H' h p v = .ok H₁ ∧ ∀ h' k, raw (H₁.setFlags h 0) h' k =
      if h' = h ∧ Value.rawequal k key = true then v else raw H h' k := by
  obtain ⟨t1, hstore, hstored⟩ := store_spec (hl.coherent.inv h) hkey hget v
  have heq : setobj2t H' h p v = .ok (H'.put h t1) := by
    rw [setobj2t, hstore]
    rfl
  refine ⟨_, heq, ?_⟩
  intro h' k
  rw [← hl.same h' k, raw, Heap.setFlags, put_put, put_self, put_table, put_hashes]
  by_cases hh : h' = h
  · subst hh
    rw [if_pos rfl]
    show value H'.hashes t1 k = _
    rw [hstored.value]
    simp only [true_and]
    rfl
  · rw [if_neg hh, if_neg (fun hboth => hh hboth.1)]
    rfl

/-! ## The assignment -/

/-- The error of a table that refuses the key. -/
def Raised (H : Heap) (key : Value) (r : M (Settled × Heap)) : Prop :=
  (¬ key.IsKey ∧ ∃ H', r = .ok (.error (keyError key), H') ∧ SameContents H H') ∨
    (key.IsKey ∧ r = .error tableOverflow)

section

variable (hproper : Value.isProper key)

include hproper

/-- A table that gets the store. -/
theorem Later.primitive (hl : Later tmname key H H') {loop : Nat}
    (hnone : (raw H h key).ttisnil = true →
      Tm.uncached tmname H (H.metatable (.object .table h)) .TM_NEWINDEX = none) :
    Primitive H key v h (settableLoop tmname (loop + 1) H' (.object .table h) key v) := by
  rw [settableLoop]
  by_cases hrefuses : Refuses H key h
  · rcases hl.setKey_refused hproper hrefuses with ⟨hkey, H₁, hset, hsame⟩ | ⟨-, hfull, hset⟩
    · exact .inl ⟨hkey, H₁, by rw [hset]; rfl, hsame⟩
    · exact .inr (.inl ⟨hfull, by rw [hset]; rfl⟩)
  · obtain ⟨p, H₁, hset, hl₁, hget⟩ := hl.setKey hrefuses
    have hkey : key.IsKey := not_not.mp (not_or.mp hrefuses).1
    have hread : (H₁.table h).read (some p) = raw H h key := by
      rw [← hl₁.same h key, raw, value, hget]
    rw [hset, ok_bind]
    simp only [hread]
    by_cases hnil : (raw H h key).ttisnil = true
    · -- the tag method is looked up, and is not there
      rw [if_pos hnil, hl₁.coherent.gfasttm_eq, hl₁.uncached, hl₁.metatable, hnone hnil]
      have hl₂ := hl₁.gfasttm (H₁.metatable (.object .table h)) .TM_NEWINDEX
      have hsame := gfasttm_same tmname H₁ (H₁.metatable (.object .table h)) .TM_NEWINDEX
      obtain ⟨H₃, hstore, hcontents⟩ := hl₂.store hkey ((hsame.luaH_get h key).trans hget)
      refine .inr (.inr ⟨hkey, H₃.setFlags h 0, ?_, hcontents⟩)
      rw [hl₁.metatable] at hstore
      simp only [hstore, ok_bind]
      rfl
    · rw [if_neg hnil]
      obtain ⟨H₃, hstore, hcontents⟩ := hl₁.store hkey hget
      refine .inr (.inr ⟨hkey, H₃.setFlags h 0, ?_, hcontents⟩)
      simp only [hstore, ok_bind]
      rfl

omit hproper in
/-- A table that is asked for its tag method, and has one. -/
theorem Later.ask (hl : Later tmname key H H') (loop : Nat) {tm : Value}
    (hroom : ¬ Refuses H key h) (hnil : (raw H h key).ttisnil = true)
    (htm : Tm.uncached tmname H (H.metatable (.object .table h)) .TM_NEWINDEX = some tm) :
    ∃ H₁, Later tmname key H H₁ ∧
      (∀ f, tm = .object .function f → settableLoop tmname (loop + 1) H' (.object .table h) key v =
        .ok (.callTM tm (.object .table h), H₁)) ∧
      ((∀ f, tm ≠ .object .function f) →
        settableLoop tmname (loop + 1) H' (.object .table h) key v =
          settableLoop tmname loop H₁ tm key v) := by
  obtain ⟨p, H₁, hset, hl₁, hget⟩ := hl.setKey hroom
  have hread : (H₁.table h).read (some p) = raw H h key := by
    rw [← hl₁.same h key, raw, value, hget]
  refine ⟨_, hl₁.gfasttm (H₁.metatable (.object .table h)) .TM_NEWINDEX, ?_⟩
  rw [settableLoop, hset, ok_bind]
  simp only [hread]
  rw [if_pos hnil, hl₁.coherent.gfasttm_eq, hl₁.uncached, hl₁.metatable, htm]
  constructor
  · rintro f rfl
    rfl
  · intro hne
    dsimp only
    split
    · next f => exact absurd rfl (hne f)
    · rfl

omit hproper in
/-- A value that is not a table only has its tag method. -/
theorem other_cases (loop : Nat) (ht : ∀ h, t ≠ .object .table h) :
    (∃ s, consult tmname H key (loop + 1) t = .ends s ∧ passed tmname H key (loop + 1) t = [] ∧
      ∀ H', luaT_gettmbyobj tmname H' t .TM_NEWINDEX = luaT_gettmbyobj tmname H t .TM_NEWINDEX →
        settableLoop tmname (loop + 1) H' t key v = .ok (s, H')) ∨
    ∃ tm, consult tmname H key (loop + 1) t = consult tmname H key loop tm ∧
      passed tmname H key (loop + 1) t = passed tmname H key loop tm ∧
      ∀ H', luaT_gettmbyobj tmname H' t .TM_NEWINDEX = luaT_gettmbyobj tmname H t .TM_NEWINDEX →
        settableLoop tmname (loop + 1) H' t key v = settableLoop tmname loop H' tm key v := by
  have hconsult : consult tmname H key (loop + 1) t =
      match luaT_gettmbyobj tmname H t .TM_NEWINDEX with
      | .nil => .ends (.typeerror t "index")
      | .object .function f => .ends (.callTM (.object .function f) t)
      | tm => consult tmname H key loop tm := by
    rw [consult]
    exact ht
  have hpassed : passed tmname H key (loop + 1) t =
      match luaT_gettmbyobj tmname H t .TM_NEWINDEX with
      | .nil => []
      | .object .function _ => []
      | tm => passed tmname H key loop tm := by
    rw [passed]
    exact ht
  have hsettable : ∀ H', settableLoop tmname (loop + 1) H' t key v =
      match luaT_gettmbyobj tmname H' t .TM_NEWINDEX with
      | .nil => .ok (.typeerror t "index", H')
      | .object .function f => .ok (.callTM (.object .function f) t, H')
      | tm => settableLoop tmname loop H' tm key v := by
    intro H'
    rw [settableLoop]
    all_goals first
      | exact ht
      | rfl
  rw [hconsult, hpassed]
  by_cases hnil : luaT_gettmbyobj tmname H t .TM_NEWINDEX = .nil
  · left
    rw [hnil]
    refine ⟨_, rfl, rfl, fun H' heq => ?_⟩
    rw [hsettable, heq]
  by_cases hfunction : ∃ f, luaT_gettmbyobj tmname H t .TM_NEWINDEX = .object .function f
  · left
    obtain ⟨f, hf⟩ := hfunction
    rw [hf]
    refine ⟨_, rfl, rfl, fun H' heq => ?_⟩
    rw [hsettable, heq]
  · right
    refine ⟨luaT_gettmbyobj tmname H t .TM_NEWINDEX, ?_, ?_, fun H' heq => ?_⟩
    · split
      · next heq => exact absurd heq hnil
      · next f heq => exact absurd ⟨f, heq⟩ hfunction
      · rfl
    · split
      · next heq => exact absurd heq hnil
      · next f heq => exact absurd ⟨f, heq⟩ hfunction
      · rfl
    · rw [hsettable, heq]
      split
      · next heq => exact absurd heq hnil
      · next f heq => exact absurd ⟨f, heq⟩ hfunction
      · rfl

omit hproper in
/-- A table that is asked: its tag method is called, or the assignment goes on with it. -/
theorem ask_cases (loop : Nat) {tm : Value} (hnil : (raw H h key).ttisnil = true)
    (htm : uncached tmname H (H.metatable (.object .table h)) .TM_NEWINDEX = some tm) :
    ((∃ f, tm = .object .function f) ∧
      consult tmname H key (loop + 1) (.object .table h) =
        .ends (.callTM tm (.object .table h)) ∧
      passed tmname H key (loop + 1) (.object .table h) = [h]) ∨
    ((∀ f, tm ≠ .object .function f) ∧
      consult tmname H key (loop + 1) (.object .table h) = consult tmname H key loop tm ∧
      passed tmname H key (loop + 1) (.object .table h) = h :: passed tmname H key loop tm) := by
  by_cases hfunction : ∃ f, tm = .object .function f
  · obtain ⟨f, rfl⟩ := hfunction
    left
    refine ⟨⟨f, rfl⟩, ?_, ?_⟩
    · simp only [consult, if_pos hnil, htm]
    · simp only [passed, if_pos hnil, htm]
  · right
    refine ⟨fun f heq => hfunction ⟨f, heq⟩, ?_, ?_⟩
    · simp only [consult, if_pos hnil, htm]
      split
      · next heq => cases heq
      · next f heq => exact absurd ⟨f, Option.some.inj heq⟩ hfunction
      · next heq => rw [Option.some.inj heq]
    · simp only [passed, if_pos hnil, htm]
      split
      · next heq => cases heq
      · next f heq => exact absurd ⟨f, Option.some.inj heq⟩ hfunction
      · next heq => rw [Option.some.inj heq]

omit hproper in
theorem store_case (loop : Nat)
    (hnone : (raw H h key).ttisnil = true →
      uncached tmname H (H.metatable (.object .table h)) .TM_NEWINDEX = none) :
    consult tmname H key (loop + 1) (.object .table h) = .table h ∧
      passed tmname H key (loop + 1) (.object .table h) = [] := by
  rw [consult, passed]
  by_cases hnil : (raw H h key).ttisnil = true
  · rw [if_pos hnil, if_pos hnil, hnone hnil]
    exact ⟨rfl, rfl⟩
  · rw [if_neg hnil, if_neg hnil]
    exact ⟨rfl, rfl⟩

/-- If no table on the way refuses the key, the assignment is made; otherwise the first one that does
raises its error. -/
theorem Later.settableLoop (hl : Later tmname key H H') (loop : Nat) (t : Value) :
    ((∀ h ∈ passed tmname H key loop t, ¬ Refuses H key h) →
      Correct tmname H key loop t v (settableLoop tmname loop H' t key v)) ∧
    ((∃ h ∈ passed tmname H key loop t, Refuses H key h) →
      Raised H key (Tm.settableLoop tmname loop H' t key v)) := by
  induction loop generalizing H' t with
  | zero =>
    refine ⟨fun _ => ⟨H', rfl, hl.same⟩, ?_⟩
    rintro ⟨h, hmem, -⟩
    cases hmem
  | succ loop ih =>
    by_cases ht : ∃ h, t = .object .table h
    · obtain ⟨h, rfl⟩ := ht
      by_cases hasks : (raw H h key).ttisnil = true ∧ ∃ tm,
          Tm.uncached tmname H (H.metatable (.object .table h)) .TM_NEWINDEX = some tm
      · obtain ⟨hnil, tm, htm⟩ := hasks
        have hraised : Refuses H key h →
            Raised H key (Tm.settableLoop tmname (loop + 1) H' (.object .table h) key v) := by
          intro hrefuses
          rw [Tm.settableLoop]
          rcases hl.setKey_refused hproper hrefuses with ⟨hkey, H₁, hset, hsame⟩ | ⟨hkey, -, hset⟩
          · exact .inl ⟨hkey, H₁, by rw [hset]; rfl, hsame⟩
          · exact .inr ⟨hkey, by rw [hset]; rfl⟩
        rcases ask_cases loop hnil htm with ⟨⟨f, rfl⟩, hconsult, hpassed⟩ | ⟨hne, hconsult, hpassed⟩
        · rw [hpassed]
          constructor
          · intro hall
            obtain ⟨H₁, hl₁, hcall, -⟩ := hl.ask (v := v) loop
              (hall h (List.mem_singleton_self h)) hnil htm
            rw [Correct, hconsult]
            exact ⟨H₁, hcall f rfl, hl₁.same⟩
          · rintro ⟨h', hmem, hrefuses⟩
            obtain rfl := List.mem_singleton.mp hmem
            exact hraised hrefuses
        · rw [hpassed]
          by_cases hrefuses : Refuses H key h
          · exact ⟨fun hall => absurd hrefuses (hall h (List.mem_cons_self ..)),
              fun _ => hraised hrefuses⟩
          · obtain ⟨H₁, hl₁, -, hgo⟩ := hl.ask (v := v) loop hrefuses hnil htm
            rw [Correct, hconsult, hgo hne]
            refine ⟨fun hall => (ih hl₁ tm).1 fun h' hmem => hall h' (List.mem_cons_of_mem _ hmem),
              ?_⟩
            rintro ⟨h', hmem, hrefuses'⟩
            rcases List.mem_cons.mp hmem with rfl | hmem
            · exact absurd hrefuses' hrefuses
            · exact (ih hl₁ tm).2 ⟨h', hmem, hrefuses'⟩
      · have hnone : (raw H h key).ttisnil = true →
            Tm.uncached tmname H (H.metatable (.object .table h)) .TM_NEWINDEX = none := by
          intro hnil
          cases htm : Tm.uncached tmname H (H.metatable (.object .table h)) .TM_NEWINDEX with
          | none => rfl
          | some tm => exact absurd ⟨hnil, tm, htm⟩ hasks
        obtain ⟨hconsult, hpassed⟩ := store_case loop hnone
        rw [hpassed, Correct, hconsult]
        refine ⟨fun _ => hl.primitive hproper hnone, ?_⟩
        rintro ⟨h', hmem, -⟩
        cases hmem
    · have hother : ∀ h, t ≠ .object .table h := fun h heq => ht ⟨h, heq⟩
      rcases @other_cases tmname H key t v loop hother with
        ⟨s, hconsult, hpassed, hloop⟩ | ⟨tm, hconsult, hpassed, hloop⟩
      · rw [hpassed, Correct, hconsult, hloop H' (hl.gettmbyobj t _)]
        refine ⟨fun _ => ⟨H', rfl, hl.same⟩, ?_⟩
        rintro ⟨h, hmem, -⟩
        cases hmem
      · rw [hpassed, Correct, hconsult, hloop H' (hl.gettmbyobj t _)]
        exact ih hl tm

end

/-- Only a loop ends a chain with an error. -/
theorem consult_error {loop : Nat} {t : Value} {msg : String}
    (h : consult tmname H key loop t = .ends (.error msg)) : msg = "loop in settable" := by
  induction loop generalizing t with
  | zero =>
    cases h
    rfl
  | succ loop ih =>
    rw [consult.eq_def] at h
    simp only at h
    split at h
    · split at h
      · split at h
        · cases h
        · cases h
        · exact ih h
      · cases h
    · split at h
      · cases h
      · cases h
      · exact ih h

/-- The assignment ends as it is to do exactly if no table on the way refuses the key, or the one
that gets the store refuses it as well. -/
theorem settable_consults_iff (hr : Reachable tmname H) (hproper : Value.isProper key) :
    Correct tmname H key MAXTAGLOOP t v (luaV_settable tmname H t key v) ↔
      (∀ h ∈ passed tmname H key MAXTAGLOOP t, ¬ Refuses H key h) ∨
        ∃ h, consult tmname H key MAXTAGLOOP t = .table h ∧ Refuses H key h := by
  have hboth := (Later.refl hr.coherent).settableLoop (v := v) hproper MAXTAGLOOP t
  by_cases hall : ∀ h ∈ passed tmname H key MAXTAGLOOP t, ¬ Refuses H key h
  · exact ⟨fun _ => .inl hall, fun _ => hboth.1 hall⟩
  rw [or_iff_right hall]
  have hraised : Raised H key (luaV_settable tmname H t key v) := hboth.2 (by simpa using hall)
  rw [Correct]
  cases hconsult : consult tmname H key MAXTAGLOOP t with
  | table h =>
    constructor
    · intro hprimitive
      refine ⟨h, rfl, ?_⟩
      rcases hprimitive with ⟨hkey, -⟩ | ⟨hfull, -⟩ | ⟨hkey, H', heq, -⟩
      · exact .inl hkey
      · exact .inr hfull
      · rcases hraised with ⟨hnot, -⟩ | ⟨-, herror⟩
        · exact .inl hnot
        · rw [heq] at herror
          cases herror
    · rintro ⟨h', heq, hrefuses⟩
      cases heq
      rcases hraised with ⟨hkey, hraised⟩ | ⟨hkey, herror⟩
      · exact .inl ⟨hkey, hraised⟩
      · exact .inr (.inl ⟨hrefuses.resolve_left (not_not.mpr hkey), herror⟩)
  | ends s =>
    constructor
    · rintro ⟨H', heq, -⟩
      rcases hraised with ⟨-, H₁, hraised, -⟩ | ⟨-, herror⟩
      · rw [hraised] at heq
        cases heq
        have hloop := consult_error hconsult
        rw [keyError.eq_def] at hloop
        split at hloop <;> exact absurd hloop (by decide)
      · rw [herror] at heq
        cases heq
    · rintro ⟨h, heq, -⟩
      cases heq

/-- Empty tables without metatables. -/
def emptyHeap : Heap := ⟨fun _ => 0, fun _ => ⟨255, [], 1, [dummynode_], true, 0, 0⟩, fun _ => none⟩

/-- A table with one node. -/
def oneNode (flags : UInt8) (key v : Value) : Table := ⟨flags, [], 1, [⟨v, key, none⟩], false, 0, 1⟩

/-- The table 0 is empty and has the metatable 1, whose `__newindex` is a function. -/
def withNewindex : Heap where
  hashes := emptyHeap.hashes
  table := (((emptyHeap.put 1 (oneNode 255 .nil .nil)).put 1 (oneNode 0 (.string 2) .nil)).put 1
    (oneNode 0 (.string 2) (.object .function 9))).table
  metatable
    | .object .table 0 => some 1
    | _ => none

theorem reachable_withNewindex : Reachable (fun e => e.bit.toNat) withNewindex := by
  have h0 : Reachable (fun e => e.bit.toNat) emptyHeap := .init fun _ => rfl
  have h1 : Reachable (fun e => e.bit.toNat) (emptyHeap.put 1 (oneNode 255 .nil .nil)) :=
    @Reachable.new _ _ 1 0 1 _ h0 (by decide) (by decide) rfl
  have hset : luaH_set (fun _ => 0) (oneNode 255 .nil .nil) (.string 2) =
      .ok (.node 0, oneNode 0 (.string 2) .nil) := by decide +kernel
  have h2 : Reachable (fun e => e.bit.toNat)
      (((emptyHeap.put 1 (oneNode 255 .nil .nil)).put 1 (oneNode 0 (.string 2) .nil)).put 1
        (oneNode 0 (.string 2) (.object .function 9))) := by
    refine @Reachable.rawset _ _ _ 1 (.string 2) (.object .function 9) h1 rfl ?_
    rw [lua_rawset, setKey]
    simp only [put_self, put_hashes]
    rw [show emptyHeap.hashes = fun _ => 0 from rfl, hset]
    rfl
  exact h2.setmetatable

/-- An assignment under a legal key calls the tag method. -/
theorem settable_consults_function :
    Correct (fun e => e.bit.toNat) withNewindex (.boolean true) MAXTAGLOOP (.object .table 0) .nil
      (luaV_settable (fun e => e.bit.toNat) withNewindex (.object .table 0) (.boolean true) .nil) := by
  refine (settable_consults_iff reachable_withNewindex rfl).mpr (.inl fun h hmem => ?_)
  have hpassed : passed (fun e => e.bit.toNat) withNewindex (.boolean true) MAXTAGLOOP
      (.object .table 0) = [0] := rfl
  rw [hpassed] at hmem
  obtain rfl := List.mem_singleton.mp hmem
  rintro (hkey | hfull)
  · exact hkey trivial
  · cases hfull

/-- Under nil it raises an error, and the function is not called. -/
theorem settable_refuses_nil :
    ∃ H, Reachable (fun e => e.bit.toNat) H ∧
      consult (fun e => e.bit.toNat) H .nil MAXTAGLOOP (.object .table 0) =
        .ends (.callTM (.object .function 9) (.object .table 0)) ∧
      ∃ H', luaV_settable (fun e => e.bit.toNat) H (.object .table 0) .nil (.boolean true) =
        .ok (.error "table index is nil", H') :=
  ⟨withNewindex, reachable_withNewindex, rfl, _, rfl⟩

end Luaxx.Tm
