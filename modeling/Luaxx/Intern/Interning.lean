import Mathlib.Data.List.Nodup
import Luaxx.Intern.Lstring

/-!
# Interned strings

Every order of new strings, new sizes of the table, marks and steps of the collector. No change of
a string changes its address, its hash or its bytes, so that the table is seen as the list of these.
A string that survives the sweep in progress survives it whatever is done before its end.
-/

namespace Luaxx.Intern

open Luaxx.Gc Luaxx.Buckets

variable {g g' : GlobalState} {w : White} {str : List UInt8}

/-! ## What a change of the table keeps -/

/-- What is never changed in a string. -/
def TString.view (ts : TString) : Nat × UInt32 × List UInt8 := (ts.ptr, ts.hash, ts.bytes)

def GlobalState.views (g : GlobalState) : List (Nat × UInt32 × List UInt8) :=
  g.strings.map TString.view

theorem place_congr {ts us : TString} (h : ts.view = us.view) (n : Nat) :
    place n ts = place n us :=
  congrArg (fun v : Nat × UInt32 × List UInt8 => lmod v.2.1 n) h

theorem lmod_lt (s : UInt32) {size : Nat} (hsize : 0 < size) : lmod s size < size :=
  Nat.lt_of_le_pred hsize Nat.and_le_right

theorem place_lt (n : Nat) (ts : TString) (hn : 0 < n) : place n ts < n := lmod_lt ts.hash hn

/-- Each hash is that of the bytes, and neither two strings nor two addresses are equal. -/
structure Distinct (l : List (Nat × UInt32 × List UInt8)) : Prop where
  hashed : ∀ v ∈ l, v.2.1 = hash v.2.2
  ptrs : (l.map fun v => v.1).Nodup
  bytes : (l.map fun v => v.2.2).Nodup

theorem Distinct.subperm {l l' : List (Nat × UInt32 × List UInt8)} (h : Distinct l)
    (hl : l'.Subperm l) : Distinct l' where
  hashed v hv := h.hashed v (hl.subset hv)
  ptrs := by
    obtain ⟨m, hperm, hsub⟩ := hl
    exact (hperm.map _).nodup_iff.1 (h.ptrs.sublist (hsub.map _))
  bytes := by
    obtain ⟨m, hperm, hsub⟩ := hl
    exact (hperm.map _).nodup_iff.1 (h.bytes.sublist (hsub.map _))

/-- Each string that survives the sweep for a white is kept, and survives it still. -/
def Keeps (w : White) (l l' : List TString) : Prop :=
  ∀ ts ∈ l, ts.survives w = true → ∃ us ∈ l', us.view = ts.view ∧ us.survives w = true

namespace Keeps

variable {l l' m m' : List TString}

theorem of_subset (h : l ⊆ l') : Keeps w l l' := fun ts hts hw => ⟨ts, h hts, rfl, hw⟩

theorem refl (l : List TString) : Keeps w l l := of_subset fun _ h => h

theorem trans {l'' : List TString} (h : Keeps w l l') (h' : Keeps w l' l'') : Keeps w l l'' := by
  intro ts hts hw
  obtain ⟨us, hus, hview, hw'⟩ := h ts hts hw
  obtain ⟨vs, hvs, hview', hw''⟩ := h' us hus hw'
  exact ⟨vs, hvs, hview'.trans hview, hw''⟩

theorem append (h : Keeps w l l') (h' : Keeps w m m') : Keeps w (l ++ m) (l' ++ m') := by
  intro ts hts hw
  rcases List.mem_append.1 hts with hts | hts
  · obtain ⟨us, hus, hus'⟩ := h ts hts hw
    exact ⟨us, List.mem_append_left _ hus, hus'⟩
  · obtain ⟨us, hus, hus'⟩ := h' ts hts hw
    exact ⟨us, List.mem_append_right _ hus, hus'⟩

theorem cons {ts us : TString} (hview : us.view = ts.view)
    (hw : ts.survives w = true → us.survives w = true) (h : Keeps w l l') :
    Keeps w (ts :: l) (us :: l') := by
  have hhead : Keeps w [ts] [us] := by
    intro vs hvs hvw
    obtain rfl := List.mem_singleton.1 hvs
    exact ⟨us, List.mem_singleton_self us, hview, hw hvw⟩
  exact hhead.append h

theorem map {f : TString → TString} (hview : ∀ ts, (f ts).view = ts.view)
    (hw : ∀ ts, ts.survives w = true → (f ts).survives w = true) : Keeps w l (l.map f) :=
  fun ts hts htsw => ⟨f ts, List.mem_map_of_mem hts, hview ts, hw ts htsw⟩

end Keeps

/-- One chain is put in another's place. -/
structure Rechained (w : White) (chain chain' : List TString) : Prop where
  sublist : (chain'.map TString.view).Sublist (chain.map TString.view)
  keeps : Keeps w chain chain'

theorem Rechained.modify {buckets : List (List TString)} {i : Nat} {chain : List TString}
    (hi : i < buckets.length) (h : Rechained w (buckets.getD i []) chain) :
    Rechained w buckets.flatten (buckets.modify i fun _ => chain).flatten := by
  obtain ⟨front, back, heq, hmodify⟩ := flatten_modify hi
  rw [heq, hmodify]
  refine ⟨?_, (Keeps.refl front).append (h.keeps.append (Keeps.refl back))⟩
  simp only [List.map_append]
  exact (List.Sublist.refl _).append (h.sublist.append (List.Sublist.refl _))

theorem Rechained.filed {buckets : List (List TString)} {i : Nat} {chain : List TString}
    (hi : i < buckets.length) (h : Rechained w (buckets.getD i []) chain)
    (hfiled : Filed place buckets) : Filed place (buckets.modify i fun _ => chain) := by
  refine hfiled.modify hi fun ts hts => ?_
  obtain ⟨us, hus, hview⟩ := List.mem_map.1 (h.sublist.subset (List.mem_map_of_mem hts))
  rw [← place_congr hview]
  exact hfiled i us hus

/-! ## The loops over a chain -/

theorem survives_of_not_dead {ts : TString} (h : ts.marked.isdead w = false) :
    ts.survives w = true := by
  rw [TString.survives, Bool.or_eq_true, Bool.not_eq_true']
  exact .inl h

theorem sameBytes_iff (o : TString) :
    (o.len = str.length ∧ o.bytes.take str.length = str) ↔ o.bytes = str := by
  constructor
  · rintro ⟨hlen, htake⟩
    rwa [← hlen, TString.len, List.take_length] at htake
  · rintro rfl
    exact ⟨rfl, List.take_length⟩

theorem findLoop_none {chain : List TString} (h : findLoop w str chain = none) :
    ∀ ts ∈ chain, ts.bytes ≠ str := by
  induction chain with
  | nil => exact fun _ h => nomatch h
  | cons o rest ih =>
    rw [findLoop] at h
    split_ifs at h with hsame hdead
    rw [Option.map_eq_none_iff] at h
    rw [sameBytes_iff] at hsame
    intro ts hts
    rcases List.mem_cons.1 hts with rfl | hts
    · exact hsame
    · exact ih h ts hts

/-- The string that is found is not dead any more; the others of the chain are as before. -/
theorem findLoop_some {chain chain' : List TString} {ptr : Nat}
    (h : findLoop w str chain = some (ptr, chain')) :
    (∃ ts ∈ chain', ts.ptr = ptr ∧ ts.bytes = str ∧ ts.survives w = true) ∧
      chain'.map TString.view = chain.map TString.view ∧ Keeps w chain chain' := by
  induction chain generalizing chain' with
  | nil => cases h
  | cons o rest ih =>
    rw [findLoop] at h
    split_ifs at h with hsame hdead
    · cases h
      have hlive : TString.survives w { o with marked := o.marked.changewhite } = true :=
        survives_of_not_dead (Marked.isdead_changewhite hdead)
      exact ⟨⟨_, List.mem_cons_self .., rfl, (sameBytes_iff o).1 hsame, hlive⟩,
        rfl, .cons rfl (fun _ => hlive) (Keeps.refl rest)⟩
    · cases h
      have hlive : o.survives w = true := survives_of_not_dead (eq_false_of_ne_true hdead)
      exact ⟨⟨o, List.mem_cons_self .., rfl, (sameBytes_iff o).1 hsame, hlive⟩,
        rfl, Keeps.refl _⟩
    · rw [Option.map_eq_some_iff] at h
      obtain ⟨⟨p, rest'⟩, hrest, heq⟩ := h
      cases heq
      obtain ⟨⟨ts, hts, hfound⟩, hviews, hkeeps⟩ := ih hrest
      exact ⟨⟨ts, List.mem_cons_of_mem _ hts, hfound⟩,
        congrArg (List.cons o.view) hviews, .cons rfl (fun h => h) hkeeps⟩

/-- What the sweep of a chain keeps is in its order, and survives. -/
theorem sweeplist_spec (chain : List TString) (nuse : UInt32) :
    Rechained w chain (sweeplist w chain nuse).1 := by
  induction chain generalizing nuse with
  | nil => exact ⟨List.Sublist.refl _, Keeps.refl _⟩
  | cons curr rest ih =>
    rw [sweeplist]
    split_ifs with hcurr
    · obtain ⟨hsub, hkeeps⟩ := ih nuse
      refine ⟨hsub.cons_cons _, .cons rfl (fun _ => ?_) hkeeps⟩
      exact survives_of_not_dead (Marked.isdead_makewhite w curr.marked)
    · obtain ⟨hsub, hkeeps⟩ := ih (nuse - 1)
      refine ⟨hsub.cons _, fun ts hts hw => ?_⟩
      rcases List.mem_cons.1 hts with rfl | hts
      · exact absurd hw hcurr
      · exact hkeeps ts hts hw

/-- `nuse` counts the strings. -/
theorem sweeplist_nuse (chain : List TString) (nuse : UInt32) :
    (sweeplist w chain nuse).2 + UInt32.ofNat chain.length =
      nuse + UInt32.ofNat (sweeplist w chain nuse).1.length := by
  induction chain generalizing nuse with
  | nil => rfl
  | cons curr rest ih =>
    rw [sweeplist]
    split_ifs with hcurr
    · have h := ih nuse
      simp only [List.length_cons, UInt32.ofNat_add]
      rw [← UInt32.add_assoc, h, UInt32.add_assoc]
    · have h := ih (nuse - 1)
      simp only [List.length_cons, UInt32.ofNat_add]
      rw [← UInt32.add_assoc, h]
      grind

/-! ## The invariant -/

structure Inv (g : GlobalState) : Prop where
  size_pos : 0 < g.size
  size_le : g.size ≤ INT_MAX
  filed : Filed place g.hash
  distinct : Distinct g.views
  nuse_eq : g.nuse = UInt32.ofNat g.strings.length
  sweeping : g.gcstate = .GCSsweepstring → g.sweepstrgc < g.size

/-- The string at an address has the bytes, and the sweep in progress does not free it. -/
def Held (g : GlobalState) (ptr : Nat) (str : List UInt8) : Prop :=
  ∃ ts ∈ g.strings, ts.ptr = ptr ∧ ts.bytes = str ∧ ts.survives g.currentwhite = true

/-- A change that keeps the invariant, and each string that survives the sweep in progress. -/
structure Safe (g g' : GlobalState) : Prop where
  inv : Inv g'
  currentwhite_eq : g'.currentwhite = g.currentwhite
  keeps : Keeps g.currentwhite g.strings g'.strings

theorem Safe.refl (h : Inv g) : Safe g g := ⟨h, rfl, Keeps.refl _⟩

theorem Safe.trans {g'' : GlobalState} (h : Safe g g') (h' : Safe g' g'') : Safe g g'' := by
  refine ⟨h'.inv, h'.currentwhite_eq.trans h.currentwhite_eq, h.keeps.trans ?_⟩
  rw [← h.currentwhite_eq]
  exact h'.keeps

theorem Held.of_safe {ptr : Nat} (h : Held g ptr str) (hsafe : Safe g g') : Held g' ptr str := by
  obtain ⟨ts, hts, hptr, hbytes, hw⟩ := h
  obtain ⟨us, hus, hview, hw'⟩ := hsafe.keeps ts hts hw
  rw [TString.view, TString.view, Prod.mk.injEq, Prod.mk.injEq] at hview
  rw [← hsafe.currentwhite_eq] at hw'
  exact ⟨us, hus, hview.1.trans hptr, hview.2.2.trans hbytes, hw'⟩

/-! ## Changes without a new string -/

theorem strings_change (ptrs : List Nat) (f : TString → TString) :
    (g.change ptrs f).strings =
      g.strings.map fun ts => if ts.ptr ∈ ptrs then f ts else ts :=
  List.map_flatten.symm

section

variable {f : TString → TString} {ptrs : List Nat}

theorem view_ite (hview : ∀ ts, (f ts).view = ts.view) (ts : TString) :
    (if ts.ptr ∈ ptrs then f ts else ts).view = ts.view := by
  split_ifs
  · exact hview ts
  · rfl

theorem Inv.change (h : Inv g) (hview : ∀ ts, (f ts).view = ts.view) : Inv (g.change ptrs f) := by
  have hsize : (g.change ptrs f).size = g.size := List.length_map ..
  refine ⟨?_, ?_, ?_, ?_, ?_, ?_⟩
  · rw [hsize]
    exact h.size_pos
  · rw [hsize]
    exact h.size_le
  · exact h.filed.map fun n ts => place_congr (view_ite hview ts) n
  · rw [GlobalState.views, strings_change, List.map_map]
    have hcomp : (TString.view ∘ fun ts => if ts.ptr ∈ ptrs then f ts else ts) = TString.view :=
      funext (view_ite hview)
    rw [hcomp]
    exact h.distinct
  · rw [strings_change, List.length_map]
    exact h.nuse_eq
  · intro hgc
    rw [hsize]
    exact h.sweeping hgc

theorem change_safe (h : Inv g) (hview : ∀ ts, (f ts).view = ts.view)
    (hw : ∀ ts, ts.survives g.currentwhite = true → (f ts).survives g.currentwhite = true) :
    Safe g (g.change ptrs f) := by
  refine ⟨h.change hview, rfl, ?_⟩
  rw [strings_change]
  refine .map (view_ite hview) fun ts hts => ?_
  split_ifs
  · exact hw ts hts
  · exact hts

end

theorem stringmark_survives (ts : TString) : (stringmark ts).survives w = true := by
  refine survives_of_not_dead ?_
  cases w <;> rfl

theorem stringmark_safe (h : Inv g) (marks : List Nat) : Safe g (g.change marks stringmark) :=
  change_safe h (fun _ => rfl) fun ts _ => stringmark_survives ts

theorem luaS_fix_safe (h : Inv g) (ptr : Nat) : Safe g (luaS_fix ptr g) :=
  change_safe h (fun _ => rfl) fun _ _ => Bool.or_true _

/-- The strings are filed again. -/
theorem luaS_resize_safe (h : Inv g) {newsize : Nat} (newvector : Bool) (hpos : 0 < newsize)
    (hle : newsize ≤ INT_MAX) :
    Safe g (luaS_resize newsize newvector g).1 := by
  rw [luaS_resize]
  split_ifs with hgc hnew
  · exact .refl h
  · have hperm : (rehash place newsize g.hash).flatten.Perm g.hash.flatten :=
      flatten_rehash place_lt hpos
    have hsize : (rehash place newsize g.hash).length = newsize := length_rehash place_lt hpos
    refine ⟨⟨?_, ?_, filed_rehash place_lt hpos, ?_, ?_, fun h => absurd h hgc⟩, rfl,
      Keeps.of_subset hperm.symm.subset⟩
    · exact Nat.lt_of_lt_of_eq hpos hsize.symm
    · exact Nat.le_trans (Nat.le_of_eq hsize) hle
    · exact h.distinct.subperm (hperm.map TString.view).subperm
    · rw [h.nuse_eq]
      exact congrArg UInt32.ofNat hperm.length_eq.symm
  · exact .refl h

/-- A chain of the table is replaced. -/
theorem Inv.rechain (h : Inv g) {i : Nat} {chain : List TString} {nuse : UInt32} {gcstate : GCState}
    {sweepstrgc : Nat} (hi : i < g.size)
    (hre : Rechained g.currentwhite (g.hash.getD i []) chain)
    (hnuse : nuse + UInt32.ofNat (g.hash.getD i []).length = g.nuse + UInt32.ofNat chain.length)
    (hsweep : gcstate = .GCSsweepstring → sweepstrgc < g.size) :
    Safe g { g with
      hash := g.hash.modify i fun _ => chain
      nuse := nuse
      gcstate := gcstate
      sweepstrgc := sweepstrgc } := by
  have hsize : (g.hash.modify i fun _ => chain).length = g.hash.length := List.length_modify ..
  have hall := hre.modify hi
  refine ⟨⟨?_, ?_, hre.filed hi h.filed, ?_, ?_, ?_⟩, rfl, hall.keeps⟩
  · exact Nat.lt_of_lt_of_eq h.size_pos hsize.symm
  · exact Nat.le_trans (Nat.le_of_eq hsize) h.size_le
  · exact h.distinct.subperm hall.sublist.subperm
  · obtain ⟨front, back, heq, hmodify⟩ := flatten_modify hi
    have hbefore := h.nuse_eq
    rw [GlobalState.strings, heq] at hbefore
    show nuse = UInt32.ofNat (g.hash.modify i fun _ => chain).flatten.length
    rw [hmodify]
    simp only [List.length_append, UInt32.ofNat_add] at hbefore ⊢
    grind
  · intro hgc
    exact Nat.lt_of_lt_of_eq (hsweep hgc) hsize.symm

/-! ## New strings -/

theorem double_le {size : Nat} (h : size ≤ MAX_INT / 2) : size * 2 ≤ INT_MAX := by
  rw [MAX_INT] at h
  omega

theorem eq_of_map_ok {result : Except Error Unit} {ptr p : Nat}
    (h : (result.map fun _ => ptr) = .ok p) : ptr = p := by
  cases result with
  | error e => cases h
  | ok u =>
    cases h
    rfl

/-- The string is not in the table, and `malloc` gives an address that is not in use. -/
theorem newlstr_spec (h : Inv g) (hnew : ∀ ts ∈ g.strings, ts.bytes ≠ str) {malloc : Option Nat}
    (hmalloc : ∀ ptr ∈ malloc, ∀ ts ∈ g.strings, ts.ptr ≠ ptr) (newvector : Bool) :
    Safe g (newlstr str (hash str) malloc newvector g).1 ∧
      ∀ ptr, (newlstr str (hash str) malloc newvector g).2 = .ok ptr →
        Held (newlstr str (hash str) malloc newvector g).1 ptr str := by
  unfold newlstr
  split_ifs with hlen
  · exact ⟨.refl h, fun _ h => nomatch h⟩
  cases malloc with
  | none => exact ⟨.refl h, fun _ h => nomatch h⟩
  | some ptr =>
    dsimp only
    generalize hts : TString.mk ptr (Marked.luaC_white g.currentwhite) false (hash str) str = ts
    have hview : ts.view = (ptr, hash str, str) := hts ▸ rfl
    have hlive : ts.survives g.currentwhite = true :=
      hts ▸ survives_of_not_dead (Marked.isdead_luaC_white _)
    have hplace := place_lt g.size ts h.size_pos
    have hperm : (push place g.hash ts).flatten.Perm (ts :: g.strings) := flatten_push hplace
    have hsize : (push place g.hash ts).length = g.hash.length := length_push ts
    have hchained : Safe g { g with hash := push place g.hash ts, nuse := g.nuse + 1 } := by
      refine ⟨⟨?_, ?_, h.filed.push hplace, ?_, ?_, ?_⟩, rfl, Keeps.of_subset fun us hus => ?_⟩
      · exact Nat.lt_of_lt_of_eq h.size_pos hsize.symm
      · exact Nat.le_trans (Nat.le_of_eq hsize) h.size_le
      · refine Distinct.subperm ?_ (hperm.map TString.view).subperm
        rw [List.map_cons, hview]
        refine ⟨?_, ?_, ?_⟩
        · rintro v (_ | ⟨_, hv⟩)
          · rfl
          · exact h.distinct.hashed v hv
        · refine List.nodup_cons.2 ⟨?_, h.distinct.ptrs⟩
          rw [List.map_map, List.mem_map]
          rintro ⟨us, hus, hptr⟩
          exact hmalloc ptr rfl us hus hptr
        · refine List.nodup_cons.2 ⟨?_, h.distinct.bytes⟩
          rw [List.map_map, List.mem_map]
          rintro ⟨us, hus, hbytes⟩
          exact hnew us hus hbytes
      · show g.nuse + 1 = UInt32.ofNat (push place g.hash ts).flatten.length
        rw [hperm.length_eq, List.length_cons, UInt32.ofNat_add, h.nuse_eq]
        rfl
      · intro hgc
        exact Nat.lt_of_lt_of_eq (h.sweeping hgc) hsize.symm
      · exact hperm.symm.subset (List.mem_cons_of_mem ts hus)
    have hheld : Held { g with hash := push place g.hash ts, nuse := g.nuse + 1 } ptr str := by
      refine ⟨ts, hperm.symm.subset (List.mem_cons_self ..), ?_, ?_, hlive⟩
      · exact congrArg (fun v : Nat × UInt32 × List UInt8 => v.1) hview
      · exact congrArg (fun v : Nat × UInt32 × List UInt8 => v.2.2) hview
    split_ifs with hcrowded
    · have hresize := luaS_resize_safe hchained.inv newvector
        (Nat.mul_pos hchained.inv.size_pos Nat.two_pos) (double_le hcrowded.2)
      refine ⟨hchained.trans hresize, fun p hp => ?_⟩
      obtain rfl := eq_of_map_ok hp
      exact hheld.of_safe hresize
    · refine ⟨hchained, fun p hp => ?_⟩
      cases hp
      exact hheld

/-- What is in the table is found in the chain of its hash. -/
theorem findLoop_complete (h : Inv g)
    (hnone : findLoop w str (g.hash.getD (lmod (hash str) g.size) []) = none) :
    ∀ ts ∈ g.strings, ts.bytes ≠ str := by
  intro ts hts hbytes
  have hhash : ts.hash = hash ts.bytes := h.distinct.hashed _ (List.mem_map_of_mem hts)
  have hmem : ts ∈ g.hash.getD (lmod ts.hash g.size) [] := h.filed.mem_place hts
  rw [hhash, hbytes] at hmem
  exact findLoop_none hnone ts hmem hbytes

theorem luaS_newlstr_spec (h : Inv g) (str : List UInt8) {malloc : Option Nat}
    (hmalloc : ∀ ptr ∈ malloc, ∀ ts ∈ g.strings, ts.ptr ≠ ptr) (newvector : Bool) :
    Safe g (luaS_newlstr str malloc newvector g).1 ∧
      ∀ ptr, (luaS_newlstr str malloc newvector g).2 = .ok ptr →
        Held (luaS_newlstr str malloc newvector g).1 ptr str := by
  rw [luaS_newlstr]
  cases hfind : findLoop g.currentwhite str (g.hash.getD (lmod (hash str) g.size) []) with
  | none => exact newlstr_spec h (findLoop_complete h hfind) hmalloc newvector
  | some found =>
    obtain ⟨ptr, chain⟩ := found
    have hi := lmod_lt (hash str) h.size_pos
    obtain ⟨⟨ts, hts, hptr, hbytes, hw⟩, hviews, hkeeps⟩ := findLoop_some hfind
    have hlen : chain.length = (g.hash.getD (lmod (hash str) g.size) []).length := by
      rw [← List.length_map TString.view, hviews, List.length_map]
    refine ⟨h.rechain hi ⟨hviews ▸ List.Sublist.refl _, hkeeps⟩ (by rw [hlen]) h.sweeping,
      fun p hp => ?_⟩
    cases hp
    refine ⟨ts, ?_, hptr, hbytes, hw⟩
    obtain ⟨front, back, -, hmodify⟩ := flatten_modify hi
    show ts ∈ (g.hash.modify _ _).flatten
    rw [hmodify]
    exact List.mem_append_right _ (List.mem_append_left _ hts)

/-! ## Steps of the collector -/

theorem checkSizes_safe (h : Inv g) (newvector resizebuffer : Bool) :
    Safe g (checkSizes newvector resizebuffer g).1 := by
  show Safe g (if _ then _ else _ : GlobalState × Except Error Unit).1
  split_ifs with hsize
  · refine luaS_resize_safe h newvector ?_ ?_
    · have := hsize.2
      rw [MINSTRTABSIZE] at this
      omega
    · exact Nat.le_trans (Nat.div_le_self _ _) h.size_le
  · exact .refl h

/-- The state of the collector is changed, but not to `GCSsweepstring`. -/
theorem Inv.gcstate_safe (h : Inv g) {gcstate : GCState} (hgc : gcstate ≠ .GCSsweepstring) :
    Safe g { g with gcstate := gcstate } :=
  ⟨⟨h.size_pos, h.size_le, h.filed, h.distinct, h.nuse_eq, fun heq => absurd heq hgc⟩, rfl,
    Keeps.refl _⟩

theorem markroot_safe (h : Inv g) (marks : List Nat) : Safe g (markroot marks g) := by
  have hmark := stringmark_safe h marks
  exact hmark.trans (hmark.inv.gcstate_safe GCState.noConfusion)

theorem atomic_inv (h : Inv g) (marks : List Nat) : Inv (atomic marks g) := by
  have hmark := (stringmark_safe h marks).inv
  exact ⟨hmark.size_pos, hmark.size_le, hmark.filed, hmark.distinct, hmark.nuse_eq,
    fun _ => hmark.size_pos⟩

theorem restart_safe (h : Inv g) : Safe g (restart g) := by
  rw [restart]
  split_ifs
  · exact ⟨⟨h.size_pos, h.size_le, h.filed, h.distinct, h.nuse_eq, fun _ => h.size_pos⟩, rfl,
      Keeps.refl _⟩
  · exact .refl h

/-- A new cycle begins to sweep where the step comes to `atomic`. -/
theorem singlestep_safe (h : Inv g) (marks : List Nat) (last newvector resizebuffer : Bool) :
    Inv (singlestep marks last newvector resizebuffer g).1 ∧
      (¬ (g.gcstate = .GCSpropagate ∧ last = true) →
        Safe g (singlestep marks last newvector resizebuffer g).1) := by
  have hsafe {g' : GlobalState} {p : Prop} (hsafe : Safe g g') : Inv g' ∧ (p → Safe g g') :=
    ⟨hsafe.inv, fun _ => hsafe⟩
  rw [singlestep]
  cases hgc : g.gcstate with
  | GCSpause => exact hsafe (markroot_safe h marks)
  | GCSpropagate =>
    dsimp only
    split_ifs with hlast
    · exact ⟨atomic_inv h marks, fun hno => absurd ⟨rfl, hlast⟩ hno⟩
    · exact hsafe (stringmark_safe h marks)
  | GCSsweepstring =>
    have hi := h.sweeping hgc
    have hre := sweeplist_spec (w := g.currentwhite) (g.hash.getD g.sweepstrgc []) g.nuse
    have hnuse := sweeplist_nuse (w := g.currentwhite) (g.hash.getD g.sweepstrgc []) g.nuse
    dsimp only
    split_ifs with hend
    · exact hsafe (h.rechain hi hre hnuse GCState.noConfusion)
    · refine hsafe (h.rechain hi hre hnuse fun _ => ?_)
      rw [GlobalState.size, List.length_modify] at hend
      exact Nat.lt_of_not_ge hend
  | GCSsweep =>
    dsimp only
    split_ifs
    · have hcheck := checkSizes_safe h newvector resizebuffer
      cases hchecked : checkSizes newvector resizebuffer g with
      | mk g' result =>
        rw [hchecked] at hcheck
        cases result with
        | ok u => exact hsafe (hcheck.trans (hcheck.inv.gcstate_safe GCState.noConfusion))
        | error e => exact hsafe hcheck
    · exact hsafe (.refl h)
  | GCSfinalize =>
    dsimp only
    split_ifs
    · exact hsafe (h.gcstate_safe GCState.noConfusion)
    · exact hsafe (.refl h)

/-! ## Runs -/

inductive Action where
  | luaS_newlstr (str : List UInt8) (malloc : Option Nat) (newvector : Bool)
  | luaS_resize (newsize : Nat) (newvector : Bool)
  | luaS_fix (ptr : Nat)
  /-- A barrier marks a string. -/
  | stringmark (ptr : Nat)
  | singlestep (marks : List Nat) (last newvector resizebuffer : Bool)
  /-- `luaC_fullgc` begins. -/
  | restart
  /-- `luaC_fullgc` begins its second cycle. -/
  | markroot (marks : List Nat)

def step (g : GlobalState) : Action → GlobalState
  | .luaS_newlstr str malloc newvector => (luaS_newlstr str malloc newvector g).1
  | .luaS_resize newsize newvector => (luaS_resize newsize newvector g).1
  | .luaS_fix ptr => luaS_fix ptr g
  | .stringmark ptr => g.change [ptr] stringmark
  | .singlestep marks last newvector resizebuffer =>
    (singlestep marks last newvector resizebuffer g).1
  | .restart => restart g
  | .markroot marks => markroot marks g

/-- `malloc` does not give the address of a string that is not freed, and the new size of the table
is positive and an `int`. -/
def Allowed (g : GlobalState) : Action → Prop
  | .luaS_newlstr _ malloc _ => ∀ ptr ∈ malloc, ∀ ts ∈ g.strings, ts.ptr ≠ ptr
  | .luaS_resize newsize _ => 0 < newsize ∧ newsize ≤ INT_MAX
  | _ => True

/-- The mark phase ends, and another sweep begins. -/
def Flips (g : GlobalState) : Action → Prop
  | .singlestep _ last _ _ => g.gcstate = .GCSpropagate ∧ last = true
  | _ => False

/-- Actions one after another, each as the state that it is done in allows. -/
inductive Run (P : GlobalState → Action → Prop) : GlobalState → List Action → GlobalState → Prop
  | nil (g : GlobalState) : Run P g [] g
  | cons {g g' : GlobalState} {a : Action} {acts : List Action} :
      P g a → Run P (step g a) acts g' → Run P g (a :: acts) g'

theorem step_safe (h : Inv g) {a : Action} (ha : Allowed g a) :
    Inv (step g a) ∧ (¬ Flips g a → Safe g (step g a)) := by
  have hsafe {g' : GlobalState} {p : Prop} (hsafe : Safe g g') : Inv g' ∧ (p → Safe g g') :=
    ⟨hsafe.inv, fun _ => hsafe⟩
  cases a with
  | luaS_newlstr str malloc newvector => exact hsafe (luaS_newlstr_spec h str ha newvector).1
  | luaS_resize newsize newvector => exact hsafe (luaS_resize_safe h newvector ha.1 ha.2)
  | luaS_fix ptr => exact hsafe (luaS_fix_safe h ptr)
  | stringmark ptr => exact hsafe (stringmark_safe h [ptr])
  | singlestep marks last newvector resizebuffer =>
    exact singlestep_safe h marks last newvector resizebuffer
  | restart => exact hsafe (restart_safe h)
  | markroot marks => exact hsafe (markroot_safe h marks)

theorem Run.inv {acts : List Action} (hrun : Run Allowed g acts g') (h : Inv g) : Inv g' := by
  induction hrun with
  | nil g => exact h
  | cons ha _ ih => exact ih (step_safe h ha).1

/-- The invariant, and each string that survives, through a run in which no other sweep begins. -/
theorem Run.safe {acts : List Action} (hrun : Run (fun g a => Allowed g a ∧ ¬ Flips g a) g acts g')
    (h : Inv g) : Safe g g' := by
  induction hrun with
  | nil g => exact .refl h
  | cons ha _ ih =>
    have hstep := (step_safe h ha.1).2 ha.2
    exact hstep.trans (ih hstep.inv)

theorem f_luaopen_inv : Inv f_luaopen where
  size_pos := by decide
  size_le := by decide
  filed := filed_replicate _
  distinct := by
    have hnil : f_luaopen.views = [] := by decide
    rw [hnil]
    exact ⟨fun _ h => absurd h List.not_mem_nil, List.nodup_nil, List.nodup_nil⟩
  nuse_eq := rfl
  sweeping := GCState.noConfusion

/-- In each state that is reached no two strings of the table have the same bytes, so that their
addresses are equal as their bytes are, and each is in the chain of the hash of its bytes. What
`luaS_newlstr` returns has the bytes, and is not freed before another sweep begins. -/
theorem strings_interned {acts : List Action} (hrun : Run Allowed f_luaopen acts g) :
    (g.strings.map TString.bytes).Nodup ∧
      (∀ ts ∈ g.strings, ∀ us ∈ g.strings, ts.ptr = us.ptr ↔ ts.bytes = us.bytes) ∧
      (∀ i, ∀ ts ∈ g.hash.getD i [], ts.hash = hash ts.bytes ∧ lmod ts.hash g.size = i) ∧
      ∀ str malloc newvector ptr, Allowed g (.luaS_newlstr str malloc newvector) →
        (luaS_newlstr str malloc newvector g).2 = .ok ptr →
        ∀ acts' g', Run (fun g a => Allowed g a ∧ ¬ Flips g a)
            (luaS_newlstr str malloc newvector g).1 acts' g' →
          ∃ ts ∈ g'.strings, ts.ptr = ptr ∧ ts.bytes = str := by
  have hinv := hrun.inv f_luaopen_inv
  have hbytes : (g.strings.map TString.bytes).Nodup := by
    have h := hinv.distinct.bytes
    rwa [GlobalState.views, List.map_map] at h
  have hptrs : (g.strings.map TString.ptr).Nodup := by
    have h := hinv.distinct.ptrs
    rwa [GlobalState.views, List.map_map] at h
  refine ⟨hbytes, ?_, ?_, ?_⟩
  · intro ts hts us hus
    constructor
    · intro hptr
      rw [List.inj_on_of_nodup_map hptrs hts hus hptr]
    · intro heq
      rw [List.inj_on_of_nodup_map hbytes hts hus heq]
  · intro i ts hts
    have hmem : ts ∈ g.strings := mem_flatten_iff.2 ⟨i, hts⟩
    exact ⟨hinv.distinct.hashed _ (List.mem_map_of_mem hmem), hinv.filed i ts hts⟩
  · intro str malloc newvector ptr hallowed hok acts' g' hrun'
    obtain ⟨hsafe, hheld⟩ := luaS_newlstr_spec hinv str hallowed newvector
    obtain ⟨ts, hts, hptr, hbytes, -⟩ := (hheld ptr hok).of_safe (hrun'.safe hsafe.inv)
    exact ⟨ts, hts, hptr, hbytes⟩

/-- A string that no mark has reached is asked for again before the sweep comes to it. -/
theorem strings_interned_unmarked :
    ∃ ts ∈ ([.luaS_resize 1 true, .luaS_newlstr [97, 98] (some 1) true,
        .singlestep [] false true true, .singlestep [] true true true,
        .luaS_newlstr [97, 98] (some 2) true,
        .singlestep [] false true true].foldl step f_luaopen).strings,
      ts.ptr = 1 ∧ ts.bytes = [97, 98] := by
  have hrun : Run Allowed f_luaopen
      [.luaS_resize 1 true, .luaS_newlstr [97, 98] (some 1) true,
        .singlestep [] false true true, .singlestep [] true true true]
      ([.luaS_resize 1 true, .luaS_newlstr [97, 98] (some 1) true,
        .singlestep [] false true true, .singlestep [] true true true].foldl step f_luaopen) := by
    refine .cons ⟨by decide, by decide⟩ (.cons ?_ (.cons trivial (.cons trivial (.nil _))))
    intro ptr _ ts hts
    exact absurd hts List.not_mem_nil
  refine (strings_interned hrun).2.2.2 [97, 98] (some 2) true 1 ?_ (by decide +kernel)
    [.singlestep [] false true true] _ (.cons ⟨trivial, ?_⟩ (.nil _))
  · intro ptr hptr
    obtain rfl := Option.some.inj hptr
    decide +kernel
  · exact fun h => Bool.false_ne_true h.2

/-- The sweep of the strings stays within the table. -/
theorem sweepstrgc_lt {acts : List Action} (hrun : Run Allowed f_luaopen acts g)
    (hgc : g.gcstate = .GCSsweepstring) : g.sweepstrgc < g.size :=
  (hrun.inv f_luaopen_inv).sweeping hgc

end Luaxx.Intern
