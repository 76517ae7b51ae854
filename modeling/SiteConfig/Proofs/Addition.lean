import SiteConfig.Proofs.Insertion
import SiteConfig.Proofs.Quotes
/-!
# Additions at the anchor

Declarations are added one after another, each at the first occurrence of
the anchor. `Anchored` holds of the text before the anchor and the text from
the anchor on, and an addition keeps it, with the declaration at the end of
the first (`Anchored.append`): a declaration does not have the anchor in
it. An addition declares its own name and leaves all others
(`Anchored.get?_append_of_ne`). So the declarations of a whole run stand in
front of the anchor in the order in which they were added
(`Editor.performAll_file`).
-/

namespace SiteConfig

open Bytes Line Declaration

/-! ## Anchors -/

/-- The anchor stands where `pre` ends and `post` starts, and nowhere before.
Only blanks are in front of it on its line. -/
structure Anchored (needle pre post : Bytes) : Prop where
  starts : needle <+: post
  first : ¬ needle <:+: pre ++ needle.dropLast
  blank : AllBlank (lastLine pre)

namespace Anchored

variable {needle pre post d : Bytes} {k k' : Kind} {name name' : String}

theorem of_indexOf? {text : Bytes} {p : Nat} (hne : needle ≠ [])
    (h : indexOf? needle text = some p) (hb : AllBlank (lastLine (text.take p))) :
    Anchored needle (text.take p) (text.drop p) := by
  obtain ⟨hstarts, hno⟩ := starts_of_indexOf? hne h
  exact ⟨hstarts, hno, hb⟩

theorem indexOf?_eq (hne : needle ≠ []) (h : Anchored needle pre post) :
    indexOf? needle (pre ++ post) = some pre.length :=
  (indexOf?_append_eq_some_iff hne).2 ⟨h.starts, h.first⟩

/-- The anchor does not occur on the lines in front of it. -/
theorem not_infix (h : Anchored needle pre post) : ¬ needle <:+: pre := fun hi =>
  h.first (hi.trans (List.prefix_append pre _).isInfix)

/-! ## One addition -/

/-- The anchor occurs up to the end of an addition where it does on its line. -/
theorem infix_append_iff (hne : needle ≠ []) (hline : lineFeed ∉ needle)
    (h : Anchored needle pre post) (hd : lineFeed ∉ d) :
    needle <:+: pre ++ d ↔ needle <:+: lastLine pre ++ d := by
  obtain ⟨before, hbefore⟩ := exists_lines_eq_concat pre
  rw [infix_iff_exists_mem_lines hne hline, lines_append_eq hbefore (lines_eq_singleton hd)]
  constructor
  · rintro ⟨line, hmem, hi⟩
    rcases List.mem_append.1 hmem with hmem | hmem
    · exact absurd hi (not_infix_of_mem_lines hne hline h.not_infix
        (hbefore ▸ List.mem_append_left _ hmem))
    · exact List.mem_singleton.1 hmem ▸ hi
  · exact fun hi => ⟨_, List.mem_append_right _ List.mem_cons_self, hi⟩

/-- **An addition keeps the anchor first**, if it does not occur up to the end of
what is added. -/
theorem append (hne : needle ≠ []) (hline : lineFeed ∉ needle) (h : Anchored needle pre post)
    (hno : ¬ needle <:+: pre ++ d) : Anchored needle (pre ++ (d ++ [lineFeed, lineFeed])) post := by
  have hassoc : pre ++ (d ++ [lineFeed, lineFeed]) = (pre ++ d) ++ lineFeed :: [lineFeed] := by simp
  have hlen : needle.dropLast.length < needle.length := by
    have := List.length_pos_iff.2 hne
    rw [List.length_dropLast]
    omega
  refine ⟨h.starts, ?_, ?_⟩
  · have hempty : [lineFeed] ++ needle.dropLast = [] ++ lineFeed :: needle.dropLast := rfl
    rw [hassoc, List.append_assoc, List.cons_append, hempty, infix_append_lineFeed_iff hne hline,
      infix_append_lineFeed_iff hne hline]
    -- an occurrence would lie before the line feeds, between them, or in a part of the anchor
    rintro (hi | hi | hi)
    · exact hno hi
    · exact hne (List.infix_nil.1 hi)
    · exact absurd hi.length_le (by omega)
  · have hlast : lines (pre ++ (d ++ [lineFeed, lineFeed])) =
        (lines (pre ++ d) ++ [[]]) ++ [[]] := by
      rw [hassoc, lines_append, List.append_assoc]
      rfl
    rw [lastLine_eq hlast]
    exact allBlank_nil

/-! ### The names after an addition -/

section Names

variable {value : String} (h : Anchored needle pre post) (hn : Text.IsName name)
  (hv : '\n' ∉ value.toList)
include h hn hv

/-- **An addition leaves all other names as they are.** -/
theorem get?_append_of_ne (hne : (k', name') ≠ (k, name)) :
    ((Catalog.scan (pre ++ (encode (canonical k name value) ++ [lineFeed, lineFeed]) ++ post)).get?
        k' name').map (·.value) = ((Catalog.scan (pre ++ post)).get? k' name').map (·.value) := by
  obtain ⟨before, m, after, -, -, htext, hadded⟩ := exists_lines_insert pre post
  rw [map_value_get?_scan, map_value_get?_scan, htext, hadded _ (lineFeed_not_mem_canonical hn hv),
    lastValue?_insert_of_ne h.blank hn hne]

/-- **An addition declares its name.** -/
theorem isSome_get?_append :
    ((Catalog.scan (pre ++ (encode (canonical k name value) ++ [lineFeed, lineFeed]) ++ post)).get?
        k name).isSome := by
  obtain ⟨before, m, after, -, -, -, hadded⟩ := exists_lines_insert pre post
  rw [isSome_get?_scan_iff, hadded _ (lineFeed_not_mem_canonical hn hv)]
  exact isSome_lastValue?_insert
    ((isSome_lastValue?_append_canonical_iff hn value).2 (.inl h.blank))

/-- **An addition is read back** if its value is one to read back. -/
theorem value_get?_append (hread : Text.ReadsBack k value.toList)
    (hnew : (Catalog.scan (pre ++ post)).get? k name = none) :
    ((Catalog.scan (pre ++ (encode (canonical k name value) ++ [lineFeed, lineFeed]) ++ post)).get?
        k name).map (·.value) = some value := by
  obtain ⟨before, m, after, -, -, htext, hadded⟩ := exists_lines_insert pre post
  rw [get?_scan_eq_none_iff, htext] at hnew
  rw [map_value_get?_scan, hadded _ (lineFeed_not_mem_canonical hn hv),
    lastValue?_insert_self h.blank hn hread hnew]

end Names

end Anchored

/-! ## Runs of additions -/

/-- How a declaration that is missing is added. -/
inductive Call where
  | add
  /-- An update that adds what is missing. -/
  | update (normalize : Bool)

/-- A declaration to be added. -/
structure Addition where
  call : Call
  kind : Kind
  name : String
  value : Value

namespace Addition

/-- What the declaration is found under. -/
def key (a : Addition) : Kind × String := (a.kind, a.name)

/-- The text of the declaration. -/
def text (a : Addition) : String := canonical a.kind a.name (a.value.render false)

/-- The declarations in order, with an empty line after each. -/
def block (as : List Addition) : Bytes :=
  as.flatMap fun a => encode a.text ++ [lineFeed, lineFeed]

/-- The addition is one to a text that does not declare the name, and its
declaration lies on one line. -/
structure IsNew (a : Addition) (text : Bytes) : Prop where
  isName : Text.IsName a.name
  get?_eq_none : (Catalog.scan text).get? a.kind a.name = none
  oneLine : '\n' ∉ (a.value.render false).toList

/-- Makes the addition, without changes to the options of the editor. -/
def perform (e : Editor) (a : Addition) (s : Storage) : Outcome Bool :=
  match a.call with
  | .add => Editor.add a.kind a.name a.value e.addOptions s
  | .update normalize => e.update a.kind a.name a.value { normalize } s

end Addition

namespace Editor

/-- Makes additions one after another. The results are those of the calls, and
the storage is that after the last. -/
def performAll (e : Editor) : List Addition → Storage → List (Except EditError Bool) × Storage
  | [], s => ([], s)
  | a :: as, s =>
    let o := a.perform e s
    let (results, s') := e.performAll as o.storage
    (o.result :: results, s')

variable {k : Kind} {name : String} {text : Bytes}

/-- **Either call adds a name that is not declared**, with the same options. -/
theorem perform_file (e : Editor) (a : Addition)
    (h : (Catalog.scan text).get? a.kind a.name = none) :
    a.perform e (.file text) = (addTo ⟨text⟩ (Catalog.scan text) a.kind a.name a.value e.addOptions
      (.file text)).after (.scanned (Catalog.scan text).size) := by
  unfold Addition.perform
  cases a.call with
  | add => rfl
  | update normalize =>
    simp only [update, scanned, Snapshot.read, Storage.read, h, if_true]
    rfl

end Editor

namespace Anchored

variable {pre post : Bytes}

/-- With the default settings a declaration goes in front of the anchor, and an
empty line between the two. -/
theorem inserted_default (d : Bytes) : Editor.inserted (pre ++ post) d pre.length
    (Editor.addOptions ⟨.default⟩) = pre ++ (d ++ [lineFeed, lineFeed]) ++ post := by
  refine (Editor.inserted_inFrontOf d).trans ?_
  rw [List.take_left, List.drop_left]

section Step

variable (h : Anchored (encode Settings.default.anchor) pre post) {a b : Addition}
  (ha : a.IsNew (pre ++ post))
include h ha

/-- **One call** adds its declaration in front of the anchor. -/
theorem perform : (a.perform ⟨.default⟩ (.file (pre ++ post))).result = .ok true ∧
    (a.perform ⟨.default⟩ (.file (pre ++ post))).storage =
      .file (pre ++ (encode a.text ++ [lineFeed, lineFeed]) ++ post) := by
  have hp : indexOf? (encode (Editor.addOptions ⟨.default⟩).anchor) (pre ++ post) =
      some pre.length := h.indexOf?_eq isAnchor_default.ne_nil
  obtain ⟨hresult, hstorage⟩ := Editor.addTo_file a.value _ ha.get?_eq_none hp
  rw [Editor.perform_file ⟨.default⟩ a ha.get?_eq_none, Outcome.result_after,
    Outcome.storage_after, hresult, hstorage, inserted_default]
  exact ⟨rfl, rfl⟩

/-- The anchor has a quote between two letters, so the declaration does not
have it, and it stands first where it stood before. -/
theorem addition :
    Anchored (encode Settings.default.anchor) (pre ++ (encode a.text ++ [lineFeed, lineFeed]))
      post := by
  have hascii : ∀ c ∈ Settings.default.anchor.toList, c.toNat < 128 := by simp [Settings.default]
  have hquote : ¬ Text.SetsOffQuotes Settings.default.anchor.toList := fun hset =>
    absurd (hset 't' 's' ⟨"/* Tha".toList, " all, stop editing!".toList, by decide⟩) (by decide)
  have hline : lineFeed ∉ encode a.text := lineFeed_not_mem_canonical ha.isName ha.oneLine
  refine h.append isAnchor_default.ne_nil isAnchor_default.lineFeed_not_mem ?_
  rw [h.infix_append_iff isAnchor_default.ne_nil isAnchor_default.lineFeed_not_mem hline,
    infix_blanks_append_iff isAnchor_default.ne_nil isAnchor_default.skipBlanks_eq h.blank]
  exact not_infix_encode_canonical ha.isName a.value hascii hquote

/-- Another addition is still one of a name that is not declared. -/
theorem isNew_of_ne (hb : b.IsNew (pre ++ post)) (hne : b.key ≠ a.key) :
    b.IsNew (pre ++ (encode a.text ++ [lineFeed, lineFeed]) ++ post) := by
  have hsame := h.get?_append_of_ne ha.isName ha.oneLine hne
  rw [hb.get?_eq_none, Option.map_none, Option.map_eq_none_iff] at hsame
  exact ⟨hb.isName, hsame, hb.oneLine⟩

end Step

/-- **A run of additions** of names that are not declared, and of none twice.
What is neither declared nor added is not declared by the run. -/
theorem performAll (h : Anchored (encode Settings.default.anchor) pre post) (as : List Addition)
    (hkeys : (as.map Addition.key).Nodup) (has : ∀ a ∈ as, a.IsNew (pre ++ post)) :
    Editor.performAll ⟨.default⟩ as (.file (pre ++ post)) =
        (List.replicate as.length (.ok true), .file (pre ++ Addition.block as ++ post)) ∧
      (∀ a ∈ as, ((Catalog.scan (pre ++ Addition.block as ++ post)).get? a.kind a.name).isSome) ∧
      ∀ k name, (k, name) ∉ as.map Addition.key →
        ((Catalog.scan (pre ++ Addition.block as ++ post)).get? k name).map (·.value) =
          ((Catalog.scan (pre ++ post)).get? k name).map (·.value) := by
  induction as generalizing pre with
  | nil => simp [Editor.performAll, Addition.block]
  | cons a as ih =>
    -- the run goes on from behind the first declaration, where the anchor is first again
    rw [List.map_cons, List.nodup_cons] at hkeys
    obtain ⟨ha, has⟩ := List.forall_mem_cons.1 has
    have hnew : ∀ b ∈ as, b.IsNew (pre ++ (encode a.text ++ [lineFeed, lineFeed]) ++ post) :=
      fun b hb => h.isNew_of_ne ha (has b hb) fun he => hkeys.1 (List.mem_map.2 ⟨b, hb, he⟩)
    obtain ⟨hresult, hstorage⟩ := h.perform ha
    obtain ⟨hrun, hdeclared, hframe⟩ := ih (h.addition ha) hkeys.2 hnew
    have hblock : pre ++ Addition.block (a :: as) ++ post =
        pre ++ (encode a.text ++ [lineFeed, lineFeed]) ++ Addition.block as ++ post := by
      simp [Addition.block]
    rw [hblock]
    refine ⟨?_, List.forall_mem_cons.2 ⟨?_, hdeclared⟩, fun k name hkey => ?_⟩
    · rw [Editor.performAll, hstorage, hrun, hresult]
      rfl
    · -- the first declaration is there after the first call, and the others leave it
      have hfirst := h.isSome_get?_append ha.isName ha.oneLine (k := a.kind)
      have hlater := congrArg Option.isSome (hframe a.kind a.name hkeys.1)
      rw [Option.isSome_map, Option.isSome_map] at hlater
      exact hlater.trans hfirst
    · rw [List.map_cons, List.mem_cons, not_or] at hkey
      rw [hframe k name hkey.2]
      exact h.get?_append_of_ne ha.isName ha.oneLine hkey.1

end Anchored

namespace Editor

variable {text : Bytes}

/-- **Additions at the default anchor.** If only blanks stand in front of the
anchor on its line, every call of a run changes the file. The declarations
then stand in front of the anchor in the order in which they were added,
each with an empty line after it. All of them are declared, and what was
declared before has the value that it had. -/
theorem performAll_file {p : Nat} (as : List Addition)
    (hp : indexOf? (encode Settings.default.anchor) text = some p)
    (hblank : AllBlank (lastLine (text.take p))) (hkeys : (as.map Addition.key).Nodup)
    (has : ∀ a ∈ as, a.IsNew text) :
    ∃ contents, performAll ⟨.default⟩ as (.file text) =
        (List.replicate as.length (.ok true), .file contents) ∧
      contents = text.take p ++ Addition.block as ++ text.drop p ∧
      (∀ a ∈ as, ((Catalog.scan contents).get? a.kind a.name).isSome) ∧
      ∀ k name, ((Catalog.scan text).get? k name).isSome →
        ((Catalog.scan contents).get? k name).map (·.value) =
          ((Catalog.scan text).get? k name).map (·.value) := by
  have hanchored := Anchored.of_indexOf? isAnchor_default.ne_nil hp hblank
  have hsplit : text.take p ++ text.drop p = text := List.take_append_drop p text
  obtain ⟨hrun, hdeclared, hframe⟩ := hanchored.performAll as hkeys (by rwa [hsplit])
  rw [hsplit] at hrun hframe
  refine ⟨_, hrun, rfl, hdeclared, fun k name hsome => hframe k name fun hmem => ?_⟩
  -- what was declared before is none of the names that are added
  obtain ⟨a, ha, hkey⟩ := List.mem_map.1 hmem
  obtain ⟨rfl, rfl⟩ := Prod.mk.inj hkey
  rw [(has a ha).get?_eq_none] at hsome
  cases hsome

/-- A constant and a variable are added above an indented anchor, the first by
an addition and the second by an update. -/
theorem performAll_indented : ∃ text contents,
    text = encode "$a = 1;\n \t/* That's all, stop editing!\n$d = 2;" ∧
      indexOf? (encode Settings.default.anchor) text = some 10 ∧
      lastLine (text.take 10) = [ascii ' ', ascii '\t'] ∧
      performAll ⟨.default⟩ [⟨.add, .const, "B", .list [.string "that's; all"]⟩,
        ⟨.update true, .var, "c", .null⟩] (.file text) = ([.ok true, .ok true], .file contents) ∧
      contents = encode ("$a = 1;\n \tdefine( 'B', array ( 0 => 'that\\'s; all' ) );\n\n" ++
        "$c = NULL;\n\n/* That's all, stop editing!\n$d = 2;") ∧
      ((Catalog.scan contents).get? .const "B").isSome ∧
      ((Catalog.scan contents).get? .var "c").isSome ∧
      ((Catalog.scan contents).get? .var "a").map (·.value) = some "1" := by
  let text := encode "$a = 1;\n \t/* That's all, stop editing!\n$d = 2;"
  have hp : indexOf? (encode Settings.default.anchor) text = some 10 := by decide +kernel
  have hline : lastLine (text.take 10) = [ascii ' ', ascii '\t'] := by decide +kernel
  have hblank : AllBlank (lastLine (text.take 10)) := by
    rw [hline]
    simp [isBlank]
  have hb : Addition.IsNew ⟨.add, .const, "B", .list [.string "that's; all"]⟩ text :=
    ⟨⟨by decide, by simp⟩, by decide +kernel, by decide⟩
  have hc : Addition.IsNew ⟨.update true, .var, "c", .null⟩ text :=
    ⟨⟨by decide, by simp⟩, by decide +kernel, by decide⟩
  obtain ⟨contents, hrun, hcontents, hdeclared, hframe⟩ := performAll_file
    [⟨.add, .const, "B", .list [.string "that's; all"]⟩, ⟨.update true, .var, "c", .null⟩]
    hp hblank (by decide) (List.forall_mem_cons.2 ⟨hb, List.forall_mem_singleton.2 hc⟩)
  refine ⟨text, contents, rfl, hp, hline, hrun, hcontents.trans (by decide +kernel),
    hdeclared _ List.mem_cons_self, hdeclared _ (List.mem_cons_of_mem _ List.mem_cons_self), ?_⟩
  rw [hframe .var "a" (by decide +kernel)]
  decide +kernel

end Editor

end SiteConfig
