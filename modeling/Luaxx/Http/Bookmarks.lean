import Luaxx.Http.Document
import Luaxx.Http.Encoding

/-!
# Bookmarks of links (`hl_collect_link`)

The bookmark of a link is cut off when its URL has already been made. A URL is then without a
bookmark exactly if its link was.
-/

namespace Luaxx.Http

open Luaxx.Ctype Luaxx.Spans

variable {s base relurl link : List UInt8} {left : Bool}

/-! ## The loop of `hl_collect_link` -/

/-- `*p = 0` at the first `#`. -/
def cutBookmark (link : List UInt8) : List UInt8 := link.takeWhile (· ≠ ch '#')

/-- What is stored for a link, and what is left of it in its buffer. -/
def storeLink (baseurl link : List UInt8) : List (List UInt8) × List UInt8 :=
  if link ≠ [] then
    let abs_url := concat_url baseurl link
    ([abs_url], cutBookmark link)
  else ([], link)

/-- The loop of `hl_collect_link`, which has fuel for the calls of `find_url`. -/
def collectLinks (baseurl : List UInt8) : Nat → List UInt8 → M (List (List UInt8))
  | 0, _ => .error .outOfFuel
  | fuel + 1, next => do
    let (next, link) ← find_url (chars "a") (chars "href") next
    -- the next call of `find_url` resets what is left of the link
    let (stored, _) := storeLink baseurl link
    match next with
    | none => return stored
    | some next => return stored ++ (← collectLinks baseurl fuel next)

/-- The elements of the table. -/
def hl_collect_link_table (html baseurl : List UInt8) : M (List (List UInt8)) :=
  let html := cstr html
  collectLinks (cstr baseurl) (html.length + 1) html

/-- The values of `href` that are found. -/
def hrefs (html : List UInt8) : M (List (List UInt8)) := do
  let html := cstr html
  return values (← findAll (chars "a") (chars "href") (html.length + 1) html)

theorem collectLinks_eq (baseurl : List UInt8) (fuel : Nat) (next : List UInt8) :
    collectLinks baseurl fuel next =
      (findAll (chars "a") (chars "href") fuel next).map fun calls =>
        (values calls).map (concat_url baseurl) := by
  induction fuel generalizing next with
  | zero => rfl
  | succ fuel ih =>
    rw [collectLinks, findAll]
    cases find_url (chars "a") (chars "href") next with
    | error e => rfl
    | ok call =>
      obtain ⟨next', link⟩ := call
      have hvalues (calls : List (Option (List UInt8) × List UInt8)) :
          (values ((next', link) :: calls)).map (concat_url baseurl) =
            (storeLink baseurl link).1 ++ (values calls).map (concat_url baseurl) := by
        rw [values, values, storeLink]
        by_cases hlink : link = []
        · rw [List.filter_cons_of_neg (by simpa using hlink), if_neg (not_not.2 hlink)]
          rfl
        · rw [List.filter_cons_of_pos (by simpa using hlink), if_pos hlink]
          rfl
      cases next' with
      | none =>
        show Except.ok (storeLink baseurl link).1 =
          .ok ((values [(none, link)]).map (concat_url baseurl))
        rw [hvalues []]
        exact congrArg _ (List.append_nil _).symm
      | some next' =>
        show (do return (storeLink baseurl link).1 ++ (← collectLinks baseurl fuel next') : M _) = _
        rw [ih]
        cases hcalls : findAll (chars "a") (chars "href") fuel next' with
        | error e =>
          show _ = Except.map _ (do return (some next', link) :: (← findAll _ _ fuel next'))
          rw [hcalls]
          rfl
        | ok calls =>
          show _ = Except.map _ (do return (some next', link) :: (← findAll _ _ fuel next'))
          rw [hcalls]
          show Except.ok ((storeLink baseurl link).1 ++ (values calls).map (concat_url baseurl)) =
            .ok _
          rw [← hvalues calls]

/-- Each link is stored as it was before the cut. -/
theorem hl_collect_link_table_eq (html baseurl : List UInt8) :
    hl_collect_link_table html baseurl =
      (hrefs html).map fun links => links.map (concat_url (cstr baseurl)) := by
  rw [hl_collect_link_table, hrefs, collectLinks_eq]
  cases findAll (chars "a") (chars "href") ((cstr html).length + 1) (cstr html) <;> rfl

/-- The loop is that of `hl_collect_resource`. -/
theorem hl_collect_link_table_resource (html baseurl : List UInt8) :
    hl_collect_link_table html baseurl = hl_collect_link html baseurl := by
  rw [hl_collect_link_table_eq, hrefs, hl_collect_link, hl_collect_resource]
  have ha : cstr (chars "a") = chars "a" := by decide
  have hhref : cstr (chars "href") = chars "href" := by decide
  rw [ha, hhref]
  cases findAll (chars "a") (chars "href") ((cstr html).length + 1) (cstr html) with
  | error e => rfl
  | ok calls =>
    show Except.ok ((values calls).map _) = .ok _
    rw [values, List.map_map]
    rfl

/-! ## Bookmarks of URLs -/

end Luaxx.Http
