import SiteConfig.Proofs.Literal
import SiteConfig.Proofs.Lookup
/-!
# Literals are unambiguous

A literal tells which value it is written for. Its first character tells the sort
of the value. A string ends at the first quote that is not escaped, and is read
back from there (`Value.unquote?_quoted_append`). A number ends where something
else than a numeral follows. An array ends where a closing parenthesis follows an
entry, and its keys are all numbers or all quoted. So no literal runs on into what
comes after it (`Value.literal_append_inj`).

The one exception is an empty map, which is written like an empty list
(`Value.render_eq_iff`).
-/

namespace SiteConfig

namespace Value

variable {v w : Value} {cs r r' : List Char}

/-! ## Values up to empty maps -/

mutual

/-- Whether all numbers in a value are integers. -/
def IsIntegral : Value → Prop
  | .null | .bool _ | .int _ | .string _ => True
  | .float _ => False
  | .list items => ItemsIntegral items
  | .map members => MembersIntegral members

/-- Whether all numbers in the items of a list are integers. -/
def ItemsIntegral : List Value → Prop
  | [] => True
  | v :: items => v.IsIntegral ∧ ItemsIntegral items

/-- Whether all numbers in the members of a map are integers. -/
def MembersIntegral : List (String × Value) → Prop
  | [] => True
  | (_, v) :: members => v.IsIntegral ∧ MembersIntegral members

end

/-- A map, or the empty list if it would have no members. -/
def ofMembers : List (String × Value) → Value
  | [] => .list []
  | members => .map members

mutual

/-- A value with an empty list in place of each empty map in it, at any depth. -/
def withoutEmptyMaps : Value → Value
  | .null => .null
  | .bool b => .bool b
  | .int n => .int n
  | .float x => .float x
  | .string s => .string s
  | .list items => .list (itemsWithoutEmptyMaps items)
  | .map members => ofMembers (membersWithoutEmptyMaps members)

/-- The items of a list with empty lists for empty maps in them. -/
def itemsWithoutEmptyMaps : List Value → List Value
  | [] => []
  | v :: items => v.withoutEmptyMaps :: itemsWithoutEmptyMaps items

/-- The members of a map with empty lists for empty maps in them. -/
def membersWithoutEmptyMaps : List (String × Value) → List (String × Value)
  | [] => []
  | (key, v) :: members => (key, v.withoutEmptyMaps) :: membersWithoutEmptyMaps members

end

theorem literal_ofMembers (members : List (String × Value)) :
    (ofMembers members).literal = array (memberEntries members) := by
  cases members <;> rfl

mutual

/-- **An empty map is written like an empty list.** -/
theorem literal_withoutEmptyMaps : ∀ v : Value, v.withoutEmptyMaps.literal = v.literal
  | .null | .bool _ | .int _ | .float _ | .string _ => rfl
  | .list items => by
    rw [withoutEmptyMaps, literal, literal, itemEntries_withoutEmptyMaps 0 items]
  | .map members => by
    rw [withoutEmptyMaps, literal_ofMembers, literal, memberEntries_withoutEmptyMaps members]

theorem itemEntries_withoutEmptyMaps (i : Nat) : ∀ items : List Value,
    itemEntries i (itemsWithoutEmptyMaps items) = itemEntries i items
  | [] => rfl
  | v :: items => by
    rw [itemsWithoutEmptyMaps, itemEntries, itemEntries, literal_withoutEmptyMaps v,
      itemEntries_withoutEmptyMaps (i + 1) items]

theorem memberEntries_withoutEmptyMaps : ∀ members : List (String × Value),
    memberEntries (membersWithoutEmptyMaps members) = memberEntries members
  | [] => rfl
  | (key, v) :: members => by
    rw [membersWithoutEmptyMaps, memberEntries, memberEntries, literal_withoutEmptyMaps v,
      memberEntries_withoutEmptyMaps members]

end

/-! ## Strings -/

/-- Reads a string up to its closing quote, and takes the backslash away from
before a backslash or a single quote. -/
def unescape? : List Char → Option (List Char × List Char)
  | [] => none
  | c :: cs =>
    if c = '\'' then some ([], cs)
    else if c = '\\' then
      match cs with
      | [] => none
      | d :: cs =>
        let escape := if d = '\\' ∨ d = '\'' then [] else ['\\']
        (unescape? cs).map fun (s, rest) => (escape ++ d :: s, rest)
    else (unescape? cs).map fun (s, rest) => (c :: s, rest)

/-- Reads a string between single quotes. -/
def unquote? : List Char → Option (List Char × List Char)
  | [] => none
  | c :: cs => if c = '\'' then unescape? cs else none

theorem unescape?_quote_cons (cs : List Char) : unescape? ('\'' :: cs) = some ([], cs) := by
  cases cs <;> simp [unescape?]

theorem unescape?_plain_cons {c : Char} (hc : ¬ (c = '\\' ∨ c = '\'')) (cs : List Char) :
    unescape? (c :: cs) = (unescape? cs).map fun (s, rest) => (c :: s, rest) := by
  rw [not_or] at hc
  cases cs <;> simp [unescape?, hc]

theorem unescape?_escaped_append (cs r : List Char) :
    unescape? (escaped cs ++ '\'' :: r) = some (cs, r) := by
  induction cs with
  | nil => exact unescape?_quote_cons r
  | cons c cs ih =>
    by_cases hc : c = '\\' ∨ c = '\''
    · rw [escaped_cons_of_mark hc]
      simp [unescape?, hc, ih]
    · rw [escaped_cons_of_plain hc, List.cons_append, unescape?_plain_cons hc, ih]
      rfl

/-- **A string is read back from its literal**, and what comes after it is left. -/
theorem unquote?_quoted_append (cs r : List Char) : unquote? (quoted cs ++ r) = some (cs, r) := by
  rw [quoted_eq, List.cons_append, List.append_assoc, List.singleton_append, unquote?, if_pos rfl,
    unescape?_escaped_append]

theorem quoted_append_inj {ds : List Char} (h : quoted cs ++ r = quoted ds ++ r') :
    cs = ds ∧ r = r' := by
  have hread := congrArg unquote? h
  rw [unquote?_quoted_append, unquote?_quoted_append] at hread
  exact Prod.mk.inj (Option.some.inj hread)

/-! ## Numbers -/

/-- Nothing that would continue a number. -/
def Stops (r : List Char) : Prop := ∀ c, r.head? = some c → ¬ IsNumeral c

theorem stops_nil : Stops [] := by simp [Stops]

/-- **A number ends** where something else than a numeral follows. -/
theorem append_inj_of_numeral {a b : List Char} (ha : ∀ c ∈ a, IsNumeral c)
    (hb : ∀ c ∈ b, IsNumeral c) (hr : Stops r) (hr' : Stops r') (h : a ++ r = b ++ r') :
    a = b ∧ r = r' := by
  induction a generalizing b with
  | nil =>
    cases b with
    | nil => exact ⟨rfl, h⟩
    | cons d b =>
      rw [List.nil_append] at h
      exact absurd (hb d List.mem_cons_self) (hr d (by rw [h]; rfl))
  | cons c a ih =>
    cases b with
    | nil =>
      rw [List.nil_append] at h
      exact absurd (ha c List.mem_cons_self) (hr' c (by rw [← h]; rfl))
    | cons d b =>
      obtain ⟨rfl, htail⟩ := List.cons.inj h
      obtain ⟨rfl, hrest⟩ := ih (List.forall_mem_cons.1 ha).2 (List.forall_mem_cons.1 hb).2 htail
      exact ⟨rfl, hrest⟩

theorem toDigits_inj {n m : Nat} (h : Nat.toDigits 10 n = Nat.toDigits 10 m) : n = m := by
  calc n
    _ = Nat.ofDigitChars 10 (Nat.toDigits 10 n) 0 := Nat.ofDigitChars_ten_toDigits.symm
    _ = Nat.ofDigitChars 10 (Nat.toDigits 10 m) 0 := by rw [h]
    _ = m := Nat.ofDigitChars_ten_toDigits

theorem integer_inj {n m : Int} (h : integer n = integer m) : n = m := by
  have hsign : ∀ k : Nat, '-' ∉ Nat.toDigits 10 k := fun k hmem =>
    absurd (Nat.isDigit_of_mem_toDigits (by decide) (by decide) hmem) (by decide)
  by_cases hn : n < 0 <;> by_cases hm : m < 0
  · have habs : n.natAbs = m.natAbs := toDigits_inj (by simpa [integer, hn, hm] using h)
    omega
  · refine absurd ?_ (hsign m.natAbs)
    simp only [integer, hn, hm, if_true, if_false, List.nil_append] at h
    simp [← h]
  · refine absurd ?_ (hsign n.natAbs)
    simp only [integer, hn, hm, if_true, if_false, List.nil_append] at h
    simp [h]
  · have habs : n.natAbs = m.natAbs := toDigits_inj (by simpa [integer, hn, hm] using h)
    omega

/-! ## Arrays -/

/-- What follows an entry of an array: a comma and an entry, for each of those that
are left, and the end of the array. -/
def trailing (entries : List (List Char)) : List Char :=
  entries.flatMap (',' :: ·) ++ [' ', ')']

/-- An entry does not start like the end of an array. -/
def IsEntry (e : List Char) : Prop := ∃ key value c, e = entry (c :: key) value ∧ c ≠ ')'

theorem stops_trailing (entries : List (List Char)) (r : List Char) :
    Stops (trailing entries ++ r) := by
  cases entries <;> simp [Stops, trailing, IsNumeral]

theorem trailing_cons (e : List Char) (entries : List (List Char)) (r : List Char) :
    trailing (e :: entries) ++ r = ',' :: (e ++ (trailing entries ++ r)) := by
  simp [trailing]

theorem entry_append (key value r : List Char) :
    entry key value ++ r = ' ' :: (key ++ (" => ".toList ++ (value ++ r))) := by
  simp [entry]

theorem array_append (e : List Char) (entries : List (List Char)) (r : List Char) :
    array (e :: entries) ++ r =
      ['a', 'r', 'r', 'a', 'y', ' ', '('] ++ (e ++ (trailing entries ++ r)) := by
  rw [array_eq, intercalate_singleton_cons]
  simp [trailing]

/-- **An array ends** where no entry follows. -/
theorem array_append_inj {es es' : List (List Char)} (h : ∀ e ∈ es, IsEntry e)
    (h' : ∀ e ∈ es', IsEntry e) (heq : array es ++ r = array es' ++ r') :
    trailing es ++ r = trailing es' ++ r' := by
  have hnil : ∀ r, array [] ++ r =
      ['a', 'r', 'r', 'a', 'y', ' ', '('] ++ (trailing [] ++ r) := fun _ => rfl
  have hne : ∀ e, IsEntry e → ∀ x y, trailing [] ++ x ≠ e ++ y := by
    rintro e ⟨key, value, c, rfl, hc⟩ x y hxy
    simp [trailing, entry] at hxy
    exact hc hxy.1.symm
  cases es with
  | nil =>
    cases es' with
    | nil => exact List.append_cancel_left ((hnil r).symm.trans (heq.trans (hnil r')))
    | cons e' es' =>
      rw [hnil, array_append] at heq
      exact absurd (List.append_cancel_left heq) (hne e' (h' e' List.mem_cons_self) _ _)
  | cons e es =>
    cases es' with
    | nil =>
      rw [hnil, array_append] at heq
      exact absurd (List.append_cancel_left heq).symm (hne e (h e List.mem_cons_self) _ _)
    | cons e' es' =>
      rw [array_append, array_append] at heq
      rw [trailing_cons, trailing_cons, List.append_cancel_left heq]

theorem exists_toDigits_eq_cons (i : Nat) : ∃ c cs, Nat.toDigits 10 i = c :: cs ∧ IsNumeral c := by
  obtain ⟨c, cs, h⟩ := List.exists_cons_of_ne_nil (Nat.toDigits_ne_nil (n := i) (b := 10))
  exact ⟨c, cs, h, isNumeral_of_mem_toDigits c (by rw [h]; exact List.mem_cons_self)⟩

theorem isEntry_item (i : Nat) (items : List Value) : ∀ e ∈ itemEntries i items, IsEntry e := by
  induction items generalizing i with
  | nil => simp [itemEntries]
  | cons v items ih =>
    obtain ⟨c, cs, hdigits, hc⟩ := exists_toDigits_eq_cons i
    rw [itemEntries, List.forall_mem_cons, hdigits]
    exact ⟨⟨cs, v.literal, c, rfl, hc.ne (by decide)⟩, ih (i + 1)⟩

theorem isEntry_member (members : List (String × Value)) :
    ∀ e ∈ memberEntries members, IsEntry e := by
  induction members with
  | nil => simp [memberEntries]
  | cons member members ih =>
    rw [memberEntries, List.forall_mem_cons]
    exact ⟨⟨_, _, '\'', rfl, by decide⟩, ih⟩

/-- **A list is not written like a map that has members.** -/
theorem literal_list_append_ne (items : List Value) (member : String × Value)
    (members : List (String × Value)) (r r' : List Char) :
    (list items).literal ++ r ≠ (map (member :: members)).literal ++ r' := by
  intro h
  have htrailing := array_append_inj (isEntry_item 0 _) (isEntry_member _) h
  rw [memberEntries, trailing_cons, quoted_eq] at htrailing
  cases items with
  | nil => simp [itemEntries, trailing] at htrailing
  | cons v items =>
    rw [itemEntries, trailing_cons, Nat.toDigits_zero] at htrailing
    simp [entry] at htrailing

/-! ## Sorts of values -/

/-- The first character of a literal, with one for all numbers. -/
def mark : Value → Char
  | .null => 'N'
  | .bool true => 't'
  | .bool false => 'f'
  | .int _ | .float _ => '0'
  | .string _ => '\''
  | .list _ | .map _ => 'a'

theorem head?_literal (v : Value) :
    v.literal.head?.map (fun c => if IsNumeral c then '0' else c) = some v.mark := by
  have hnumber : ∀ cs : List Char, cs ≠ [] → (∀ c ∈ cs, IsNumeral c) →
      cs.head?.map (fun c => if IsNumeral c then '0' else c) = some '0' := by
    intro cs hne h
    obtain ⟨c, cs, rfl⟩ := List.exists_cons_of_ne_nil hne
    simp [h c List.mem_cons_self]
  cases v with
  | null => rfl
  | bool b => cases b <;> rfl
  | int n => exact hnumber _ integer_ne_nil isNumeral_of_mem_integer
  | float x => exact hnumber _ float_ne_nil isNumeral_of_mem_float
  | string s => rfl
  | list items => rfl
  | map members => rfl

theorem mark_eq_of_append (h : v.literal ++ r = w.literal ++ r') : v.mark = w.mark := by
  have hfirst : ∀ (u : Value) (x : List Char), (u.literal ++ x).head? = u.literal.head? := by
    intro u x
    have hmark := head?_literal u
    cases hu : u.literal with
    | nil => simp [hu] at hmark
    | cons c cs => rfl
  have hhead : v.literal.head? = w.literal.head? := by rw [← hfirst v r, h, hfirst]
  have hmarks := head?_literal v
  rw [hhead, head?_literal w] at hmarks
  exact (Option.some.inj hmarks).symm

/-- Values whose literals start alike. -/
inductive SameSort : Value → Value → Prop where
  | null : SameSort .null .null
  | bool (b : Bool) : SameSort (.bool b) (.bool b)
  | int (n m : Int) : SameSort (.int n) (.int m)
  | string (s t : String) : SameSort (.string s) (.string t)
  | list (items items' : List Value) : SameSort (.list items) (.list items')
  | listMap (items : List Value) (members : List (String × Value)) :
    SameSort (.list items) (.map members)
  | mapList (items : List Value) (members : List (String × Value)) :
    SameSort (.map members) (.list items)
  | map (members members' : List (String × Value)) : SameSort (.map members) (.map members')

theorem sameSort_of_append (hv : v.IsIntegral) (hw : w.IsIntegral)
    (h : v.literal ++ r = w.literal ++ r') : SameSort v w := by
  have hmark := mark_eq_of_append h
  rcases v with _ | (_ | _) | _ | _ | _ | _ | _ <;>
    rcases w with _ | (_ | _) | _ | _ | _ | _ | _ <;>
    first
    | constructor
    | exact hv.elim
    | exact hw.elim
    | simp [mark] at hmark

/-! ## The whole literal -/

mutual

/-- **A literal tells its value and where it ends**, up to empty maps. -/
theorem literal_append_inj : ∀ (v w : Value) (r r' : List Char), v.IsIntegral → w.IsIntegral →
    Stops r → Stops r' → v.literal ++ r = w.literal ++ r' →
      v.withoutEmptyMaps = w.withoutEmptyMaps ∧ r = r'
  | .null, w, r, r', hv, hw, hr, hr', h => by
    cases sameSort_of_append hv hw h
    exact ⟨rfl, List.append_cancel_left h⟩
  | .bool b, w, r, r', hv, hw, hr, hr', h => by
    cases sameSort_of_append hv hw h
    exact ⟨rfl, List.append_cancel_left h⟩
  | .int n, w, r, r', hv, hw, hr, hr', h => by
    cases sameSort_of_append hv hw h with
    | int _ m =>
      obtain ⟨hnumber, hrest⟩ := append_inj_of_numeral isNumeral_of_mem_integer
        isNumeral_of_mem_integer hr hr' h
      exact ⟨congrArg _ (congrArg int (integer_inj hnumber)), hrest⟩
  | .float x, w, r, r', hv, hw, hr, hr', h => hv.elim
  | .string s, w, r, r', hv, hw, hr, hr', h => by
    cases sameSort_of_append hv hw h with
    | string _ t =>
      obtain ⟨hchars, hrest⟩ := quoted_append_inj h
      exact ⟨congrArg _ (congrArg string (String.toList_inj.1 hchars)), hrest⟩
  | .list items, w, r, r', hv, hw, hr, hr', h => by
    cases sameSort_of_append hv hw h with
    | list _ items' =>
      obtain ⟨hitems, hrest⟩ := itemEntries_append_inj 0 items items' r r' hv hw
        (array_append_inj (isEntry_item 0 _) (isEntry_item 0 _) h)
      exact ⟨by rw [withoutEmptyMaps, withoutEmptyMaps, hitems], hrest⟩
    | listMap _ members =>
      cases members with
      | nil =>
        obtain ⟨hitems, hrest⟩ := itemEntries_append_inj 0 items [] r r' hv trivial
          (array_append_inj (isEntry_item 0 _) (isEntry_item 0 _) h)
        exact ⟨by rw [withoutEmptyMaps, hitems]; rfl, hrest⟩
      | cons member members => exact absurd h (literal_list_append_ne items member members r r')
  | .map members, w, r, r', hv, hw, hr, hr', h => by
    cases sameSort_of_append hv hw h with
    | map _ members' =>
      obtain ⟨hmembers, hrest⟩ := memberEntries_append_inj members members' r r' hv hw
        (array_append_inj (isEntry_member _) (isEntry_member _) h)
      exact ⟨by rw [withoutEmptyMaps, withoutEmptyMaps, hmembers], hrest⟩
    | mapList items _ =>
      cases members with
      | nil =>
        obtain ⟨hitems, hrest⟩ := itemEntries_append_inj 0 [] items r r' trivial hw
          (array_append_inj (isEntry_item 0 _) (isEntry_item 0 _) h)
        exact ⟨by rw [withoutEmptyMaps, withoutEmptyMaps, ← hitems]; rfl, hrest⟩
      | cons member members =>
        exact absurd h.symm (literal_list_append_ne items member members r' r)

theorem itemEntries_append_inj (i : Nat) : ∀ (items items' : List Value) (r r' : List Char),
    ItemsIntegral items → ItemsIntegral items' →
    trailing (itemEntries i items) ++ r = trailing (itemEntries i items') ++ r' →
      itemsWithoutEmptyMaps items = itemsWithoutEmptyMaps items' ∧ r = r'
  | [], [], r, r', hv, hw, h => ⟨rfl, List.append_cancel_left h⟩
  | [], w :: items', r, r', hv, hw, h => by simp [itemEntries, trailing] at h
  | v :: items, [], r, r', hv, hw, h => by simp [itemEntries, trailing] at h
  | v :: items, w :: items', r, r', hv, hw, h => by
    rw [itemEntries, itemEntries, trailing_cons, trailing_cons, entry_append, entry_append] at h
    -- the keys count up alike, so they are the same
    have hvalue := List.append_cancel_left (List.append_cancel_left
      (List.cons.inj (List.cons.inj h).2).2)
    obtain ⟨hfirst, hlater⟩ := literal_append_inj v w _ _ hv.1 hw.1 (stops_trailing _ _)
      (stops_trailing _ _) hvalue
    obtain ⟨hitems, hrest⟩ := itemEntries_append_inj (i + 1) items items' r r' hv.2 hw.2 hlater
    exact ⟨by rw [itemsWithoutEmptyMaps, itemsWithoutEmptyMaps, hfirst, hitems], hrest⟩

theorem memberEntries_append_inj : ∀ (members members' : List (String × Value))
    (r r' : List Char), MembersIntegral members → MembersIntegral members' →
    trailing (memberEntries members) ++ r = trailing (memberEntries members') ++ r' →
      membersWithoutEmptyMaps members = membersWithoutEmptyMaps members' ∧ r = r'
  | [], [], r, r', hv, hw, h => ⟨rfl, List.append_cancel_left h⟩
  | [], member :: members', r, r', hv, hw, h => by simp [memberEntries, trailing] at h
  | member :: members, [], r, r', hv, hw, h => by simp [memberEntries, trailing] at h
  | (key, v) :: members, (key', w) :: members', r, r', hv, hw, h => by
    rw [memberEntries, memberEntries, trailing_cons, trailing_cons, entry_append,
      entry_append] at h
    obtain ⟨hkey, harrow⟩ := quoted_append_inj (List.cons.inj (List.cons.inj h).2).2
    obtain rfl := String.toList_inj.1 hkey
    obtain ⟨hfirst, hlater⟩ := literal_append_inj v w _ _ hv.1 hw.1 (stops_trailing _ _)
      (stops_trailing _ _) (List.append_cancel_left harrow)
    obtain ⟨hmembers, hrest⟩ := memberEntries_append_inj members members' r r' hv.2 hw.2 hlater
    exact ⟨by rw [membersWithoutEmptyMaps, membersWithoutEmptyMaps, hfirst, hmembers], hrest⟩

end

/-- **The literals of two values are the same** if and only if the values are, up to
empty lists for empty maps at any depth. Their numbers have to be integers. In
particular a string is read back from its literal, and no list is written like a
map that has members. -/
theorem render_eq_iff (hv : v.IsIntegral) (hw : w.IsIntegral) :
    (v.render false = w.render false ↔ v.withoutEmptyMaps = w.withoutEmptyMaps) ∧
      (∀ s : String, unquote? ((string s).render false).toList = some (s.toList, [])) ∧
      ∀ items member members,
        (list items).render false ≠ (map (member :: members)).render false := by
  have hliteral : ∀ u u' : Value, u.render false = u'.render false ↔ u.literal = u'.literal := by
    intro u u'
    rw [← String.toList_inj, toList_render, toList_render]
  refine ⟨?_, fun s => ?_, fun items member members h => ?_⟩
  · rw [hliteral]
    constructor
    · intro h
      exact (literal_append_inj v w [] [] hv hw stops_nil stops_nil (by rw [h])).1
    · intro h
      rw [← literal_withoutEmptyMaps v, h, literal_withoutEmptyMaps w]
  · have hread := unquote?_quoted_append s.toList []
    rwa [List.append_nil, ← literal, ← toList_render] at hread
  · exact literal_list_append_ne items member members [] [] (by rw [(hliteral _ _).1 h])

/-- Maps whose keys have quotes and backslashes in them, with empty arrays. -/
theorem render_eq_iff_nested : ∃ u v w : Value,
    u = .map [("it's", .map []), ("\\", .list [.int (-1), .map [("", .map [])]])] ∧
    v = .map [("it's", .list []), ("\\", .list [.int (-1), .map [("", .list [])]])] ∧
    w = .map [("it's", .list []), ("\\", .list [.int (-1), .list [.list []]])] ∧
    u.IsIntegral ∧ v.IsIntegral ∧ w.IsIntegral ∧
    u.render false = v.render false ∧ u.render false ≠ w.render false := by
  let u : Value := .map [("it's", .map []), ("\\", .list [.int (-1), .map [("", .map [])]])]
  let v : Value := .map [("it's", .list []), ("\\", .list [.int (-1), .map [("", .list [])]])]
  let w : Value := .map [("it's", .list []), ("\\", .list [.int (-1), .list [.list []]])]
  have hu : u.IsIntegral := by simp [u, IsIntegral, ItemsIntegral, MembersIntegral]
  have hv : v.IsIntegral := by simp [v, IsIntegral, ItemsIntegral, MembersIntegral]
  have hw : w.IsIntegral := by simp [w, IsIntegral, ItemsIntegral, MembersIntegral]
  refine ⟨u, v, w, rfl, rfl, rfl, hu, hv, hw, (render_eq_iff hu hv).1.2 rfl,
    mt (render_eq_iff hu hw).1.1 ?_⟩
  simp [u, w, withoutEmptyMaps, itemsWithoutEmptyMaps, membersWithoutEmptyMaps, ofMembers]

end Value

end SiteConfig
