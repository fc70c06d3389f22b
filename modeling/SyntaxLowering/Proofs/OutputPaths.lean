import Mathlib.Data.List.Basic
import SyntaxLowering.FileTree

/-!
# Where results are written

A path is read as a list of components: a root, a `.` in front, steps up, and names. The path of a
result has the components of the output directory, and behind them only names, those of the unit
path in their order. So wherever the directory is, following the path of a result leads there and
then downwards.
-/

namespace SyntaxLowering

namespace Path

/-- What a part of a path means. -/
inductive Component where
  /-- The slash in front of an absolute path. -/
  | root
  /-- A `.` in front of a relative path. Anywhere else it means nothing. -/
  | here
  | up
  | normal (name : String)
deriving DecidableEq, Repr

/-- The name of a component, if it is one. -/
def Component.name? : Component → Option String
  | normal name => some name
  | _ => none

/-- What a part of a path means wherever it stands. -/
def component? (part : String) : Option Component :=
  if isRedundant part then none else if part = ".." then some .up else some (.normal part)

/-- What a path means by its beginning. -/
def leading (path : String) : List Component :=
  if path.toList.head? = some '/' then [.root]
  else if (parts path).head? = some "." then [.here]
  else []

/-- The components of a path. -/
def components (path : String) : List Component :=
  leading path ++ (parts path).filterMap component?

/-- The names among the components of a path. -/
def names (path : String) : List String :=
  (components path).filterMap Component.name?

/-- The names that a result goes by below the output directory: those of its unit, with `.json`
after the last one unless the result is a text. -/
def resultNames (names : List String) (asText : Bool) : List String :=
  if asText then names else names.dropLast ++ [names.getLast?.getD "" ++ ".json"]

/-- A text that can stand as a name between two slashes. -/
structure IsName (name : String) : Prop where
  normal : isNormal name = true
  slash : '/' ∉ name.toList

/-! ### Splitting at slashes -/

theorem splitAtChar_ne_nil (separator : Char) (cs : List Char) : splitAtChar separator cs ≠ [] := by
  cases cs with
  | nil => simp [splitAtChar]
  | cons c cs =>
    rw [splitAtChar]
    split
    · simp
    · split <;> simp

theorem splitAtChar_append (separator : Char) (as bs : List Char) :
    splitAtChar separator (as ++ separator :: bs) =
      splitAtChar separator as ++ splitAtChar separator bs := by
  induction as with
  | nil => simp [splitAtChar]
  | cons c as ih =>
    rw [List.cons_append, splitAtChar, splitAtChar, ih]
    by_cases h : c = separator
    · rw [if_pos h, if_pos h, List.cons_append]
    · rw [if_neg h, if_neg h]
      obtain ⟨part, rest, hsplit⟩ := List.exists_cons_of_ne_nil (splitAtChar_ne_nil separator as)
      simp [hsplit]

theorem splitAtChar_of_not_mem {separator : Char} {cs : List Char} (h : separator ∉ cs) :
    splitAtChar separator cs = [cs] := by
  induction cs with
  | nil => rfl
  | cons c cs ih =>
    rw [List.mem_cons, not_or] at h
    rw [splitAtChar, if_neg (Ne.symm h.1), ih h.2]

theorem not_mem_of_mem_splitAtChar {separator : Char} {cs part : List Char}
    (h : part ∈ splitAtChar separator cs) : separator ∉ part := by
  induction cs generalizing part with
  | nil => simp_all [splitAtChar]
  | cons c cs ih =>
    rw [splitAtChar] at h
    split at h
    · rcases List.mem_cons.1 h with rfl | h
      · exact List.not_mem_nil
      · exact ih h
    · next hne =>
      obtain ⟨first, rest, hsplit⟩ := List.exists_cons_of_ne_nil (splitAtChar_ne_nil separator cs)
      rw [hsplit] at h ih
      rcases List.mem_cons.1 h with rfl | h
      · rw [List.mem_cons, not_or]
        exact ⟨Ne.symm hne, ih List.mem_cons_self⟩
      · exact ih (List.mem_cons_of_mem first h)

theorem parts_ne_nil (path : String) : parts path ≠ [] := by
  rw [parts, Ne, List.map_eq_nil_iff]
  exact splitAtChar_ne_nil '/' path.toList

theorem parts_append_slash (path rest : String) :
    parts (path ++ "/" ++ rest) = parts path ++ parts rest := by
  have htext : (path ++ "/" ++ rest).toList = path.toList ++ '/' :: rest.toList := by simp
  rw [parts, htext, splitAtChar_append, List.map_append]
  rfl

theorem slash_not_mem_of_mem_parts {path part : String} (h : part ∈ parts path) :
    '/' ∉ part.toList := by
  obtain ⟨cs, hcs, rfl⟩ := List.mem_map.1 h
  rw [String.toList_ofList]
  exact not_mem_of_mem_splitAtChar hcs

theorem parts_of_slash_not_mem {path : String} (h : '/' ∉ path.toList) : parts path = [path] := by
  rw [parts, splitAtChar_of_not_mem h, List.map_singleton, String.ofList_toList]

/-- Names put together with slashes are the parts of what comes out. -/
theorem parts_intercalate {names : List String} (hne : names ≠ [])
    (h : ∀ name ∈ names, '/' ∉ name.toList) : parts (String.intercalate "/" names) = names := by
  induction names with
  | nil => exact absurd rfl hne
  | cons name rest ih =>
    obtain ⟨hname, hrest⟩ := List.forall_mem_cons.1 h
    cases rest with
    | nil => rw [String.intercalate_singleton, parts_of_slash_not_mem hname]
    | cons next rest =>
      rw [String.intercalate_cons_cons, parts_append_slash, parts_of_slash_not_mem hname,
        ih (List.cons_ne_nil next rest) hrest, List.singleton_append]

/-! ### The names of a path -/

theorem component?_of_isNormal {part : String} (h : isNormal part = true) :
    component? part = some (.normal part) := by
  simp only [isNormal, Bool.and_eq_true, bne_iff_ne] at h
  simp [component?, isRedundant, h]

theorem filterMap_component? {names : List String} (h : ∀ name ∈ names, IsName name) :
    names.filterMap component? = names.map .normal := by
  induction names with
  | nil => rfl
  | cons name names ih =>
    obtain ⟨hname, hnames⟩ := List.forall_mem_cons.1 h
    rw [List.filterMap_cons_some (component?_of_isNormal hname.normal), ih hnames, List.map_cons]

/-- The names among the components are the parts that name files or directories. -/
theorem names_eq_normalParts (path : String) : names path = normalParts path := by
  have hleading : (leading path).filterMap Component.name? = [] := by
    unfold leading
    split_ifs <;> rfl
  have hpart : (fun part => (component? part).bind Component.name?) = Option.guard isNormal := by
    funext part
    by_cases hnormal : isNormal part = true
    · rw [component?_of_isNormal hnormal]
      simp [Option.guard, hnormal, Component.name?]
    · have hother : part = "" ∨ part = "." ∨ part = ".." := by
        by_contra hne
        simp only [not_or] at hne
        exact hnormal (by simp [isNormal, hne])
      rcases hother with rfl | rfl | rfl <;> rfl
  rw [names, components, List.filterMap_append, hleading, List.nil_append, List.filterMap_filterMap,
    hpart, List.filterMap_eq_filter]
  rfl

theorem isName_of_mem_names {path name : String} (h : name ∈ names path) : IsName name := by
  rw [names_eq_normalParts] at h
  obtain ⟨hpart, hnormal⟩ := List.mem_filter.1 h
  exact ⟨hnormal, slash_not_mem_of_mem_parts hpart⟩

theorem IsName.append_json {name : String} (h : '/' ∉ name.toList) : IsName (name ++ ".json") := by
  have hlength : 5 ≤ (name ++ ".json").length := by
    rw [String.length_append]
    exact Nat.le_add_left 5 name.length
  refine ⟨?_, by simpa using h⟩
  simp only [isNormal, Bool.and_eq_true, bne_iff_ne]
  refine ⟨⟨?_, ?_⟩, ?_⟩ <;> intro heq <;> rw [heq] at hlength <;> exact absurd hlength (by decide)

theorem isName_of_mem_resultNames {names : List String} (h : ∀ name ∈ names, IsName name)
    {asText : Bool} : ∀ name ∈ resultNames names asText, IsName name := by
  unfold resultNames
  split
  · exact h
  · intro name hname
    rcases List.mem_append.1 hname with hname | hname
    · exact h name (List.dropLast_subset names hname)
    · rw [List.mem_singleton.1 hname]
      apply IsName.append_json
      cases hlast : names.getLast? with
      | none => exact List.not_mem_nil
      | some last => exact (h last (List.mem_of_getLast? hlast)).slash

/-- Putting `.json` after the text of a path puts it after the last name. -/
theorem intercalate_append_json (names : List String) :
    String.intercalate "/" names ++ ".json" = String.intercalate "/" (resultNames names false) := by
  rcases List.eq_nil_or_concat names with rfl | ⟨init, last, rfl⟩
  · rfl
  · have hresult : resultNames (init.concat last) false = init ++ [last ++ ".json"] := by
      simp [resultNames]
    rw [hresult, List.concat_eq_append]
    by_cases hinit : init = []
    · subst hinit
      simp
    · rw [String.intercalate_append_of_ne_nil hinit (by simp),
        String.intercalate_append_of_ne_nil hinit (by simp), String.append_assoc,
        String.intercalate_singleton, String.intercalate_singleton]

/-! ### Joining paths -/

theorem join_append (directory relative suffix : String) :
    join directory relative ++ suffix = join directory (relative ++ suffix) := by
  unfold join
  split <;> simp only [String.append_assoc]

theorem outputPath_eq_join (directory unitPath : String) (asText : Bool) :
    outputPath directory unitPath asText =
      join directory (String.intercalate "/" (resultNames (names unitPath) asText)) := by
  rw [names_eq_normalParts]
  cases asText with
  | true => rfl
  | false => rw [← intercalate_append_json, ← join_append]; rfl

/-- A join puts one slash between its paths, which may be the last character of the first one. -/
theorem join_cases (directory relative : String) :
    (directory = "" ∧ join directory relative = relative) ∨
      ∃ base, (directory = base ++ "/" ∨ (directory = base ∧ base ≠ "")) ∧
        join directory relative = base ++ "/" ++ relative := by
  unfold join
  split
  · next hlast =>
    rw [List.getLast?_eq_none_iff, String.toList_eq_nil_iff] at hlast
    exact .inl ⟨hlast, rfl⟩
  · next hlast =>
    obtain ⟨init, hinit⟩ := List.getLast?_eq_some_iff.1 hlast
    have hdirectory : directory = .ofList init ++ "/" := by
      apply String.toList_injective
      simpa using hinit
    exact .inr ⟨.ofList init, .inl hdirectory, by rw [← hdirectory]⟩
  · next c _ hlast =>
    refine .inr ⟨directory, .inr ⟨rfl, ?_⟩, rfl⟩
    rintro rfl
    cases hlast

theorem leading_append_slash (base rest : String) :
    leading (base ++ "/" ++ rest) = if base = "" then [.root] else leading base := by
  by_cases hbase : base = ""
  · subst hbase
    rw [if_pos rfl]
    simp [leading]
  · rw [if_neg hbase]
    obtain ⟨c, cs, hcs⟩ := List.exists_cons_of_ne_nil (mt String.toList_eq_nil_iff.1 hbase)
    obtain ⟨part, rest', hparts⟩ := List.exists_cons_of_ne_nil (parts_ne_nil base)
    rw [leading, leading, parts_append_slash, hparts]
    simp [hcs]

theorem leading_intercalate {names : List String} (h : ∀ name ∈ names, IsName name) :
    leading (String.intercalate "/" names) = [] := by
  cases names with
  | nil => rfl
  | cons name rest =>
    have hname : IsName name := h name List.mem_cons_self
    have hne : name ≠ "" ∧ name ≠ "." := by
      have := hname.normal
      simp only [isNormal, Bool.and_eq_true, bne_iff_ne] at this
      exact this.1
    obtain ⟨c, cs, hcs⟩ := List.exists_cons_of_ne_nil (mt String.toList_eq_nil_iff.1 hne.1)
    have hhead : (String.intercalate "/" (name :: rest)).toList.head? = some c := by
      cases rest with
      | nil => simp [hcs]
      | cons next rest => simp [String.intercalate_cons_cons, hcs]
    have hslash : c ≠ '/' := by
      rintro rfl
      exact hname.slash (by simp [hcs])
    rw [leading, hhead, parts_intercalate (List.cons_ne_nil name rest) fun n hn => (h n hn).slash]
    simp [hslash, hne.2]

theorem filterMap_parts_intercalate {names : List String} (h : ∀ name ∈ names, IsName name) :
    (parts (String.intercalate "/" names)).filterMap component? = names.map .normal := by
  by_cases hnames : names = []
  · subst hnames
    rfl
  · rw [parts_intercalate hnames fun name hname => (h name hname).slash, filterMap_component? h]

/-- A path below a directory has the components of the directory, then its names. -/
theorem components_join (directory : String) {names : List String}
    (h : ∀ name ∈ names, IsName name) :
    components (join directory (String.intercalate "/" names)) =
      components directory ++ names.map .normal := by
  rcases join_cases directory (String.intercalate "/" names) with
    ⟨rfl, hjoin⟩ | ⟨base, hbase, hjoin⟩
  · rw [hjoin, components, leading_intercalate h, filterMap_parts_intercalate h]
    rfl
  · have hdirectory (rest : String) : components directory =
        leading (base ++ "/" ++ rest) ++ (parts base).filterMap component? := by
      rcases hbase with rfl | ⟨rfl, hne⟩
      · -- what follows the last slash is an empty part
        have hempty : base ++ "/" = base ++ "/" ++ "" := String.append_empty.symm
        rw [components, leading_append_slash base rest, hempty, leading_append_slash,
          parts_append_slash, List.filterMap_append]
        exact congrArg _ (List.append_nil _)
      · rw [leading_append_slash, if_neg hne, components]
    rw [hjoin, components, parts_append_slash, List.filterMap_append, filterMap_parts_intercalate h,
      ← List.append_assoc, ← hdirectory]

/-! ### Following components -/

/-- Where a component leads from a place. The root is above itself. -/
def Component.follow (place : List String) : Component → List String
  | root => []
  | here => place
  | up => place.dropLast
  | normal name => place ++ [name]

theorem foldl_follow_normal (place names : List String) :
    (names.map Component.normal).foldl Component.follow place = place ++ names := by
  induction names generalizing place with
  | nil => exact (List.append_nil place).symm
  | cons name names ih =>
    rw [List.map_cons, List.foldl_cons, ih]
    exact List.append_assoc place [name] names

end Path

namespace FileTree

open SyntaxLowering.Path

/-- The place that a path leads to by its text alone. -/
def resolve (t : FileTree) (path : String) : List String :=
  (components path).foldl Component.follow t.home

theorem follow_eq_ok {place next : List String} {part : String} (h : follow place part = .ok next) :
    next = (component? part).toList.foldl Component.follow place := by
  unfold follow at h
  unfold component?
  split_ifs at h ⊢
  · cases h; rfl
  · cases h; rfl
  · cases h; rfl

theorem walk_eq_ok {t : FileTree} {place last : List String} {parts : List String}
    (h : t.walk place parts = .ok last) :
    last = (parts.filterMap component?).foldl Component.follow place := by
  induction parts generalizing place with
  | nil => cases h; rfl
  | cons part parts ih =>
    rw [walk] at h
    split at h
    · split at h
      · next next hnext =>
        rw [ih h, follow_eq_ok hnext, List.filterMap_cons]
        cases component? part <;> rfl
      · cases h
    · cases h

/-- If a path can be followed, it leads to the place that its components say. -/
theorem locate_eq_ok {t : FileTree} {path : String} {place : List String}
    (h : t.locate path = .ok place) : place = t.resolve path := by
  unfold locate at h
  split at h
  · rw [walk_eq_ok h, resolve, components, List.foldl_append]
    congr 1
    unfold origin leading
    split_ifs <;> rfl
  · cases h

end FileTree

/-- Results stay below the output directory. Whatever the unit path holds, the path of its result
has the components of the directory and then only names: those of the unit path in order, the last
one with `.json` after it if the result is not a text. A file tree that can follow the path is led
to the place of the directory and down along these names. -/
theorem outputPath_stays_below (directory unitPath : String) (asText : Bool) :
    let names := Path.resultNames (Path.names unitPath) asText
    Path.components (Path.outputPath directory unitPath asText) =
      Path.components directory ++ names.map .normal ∧
    (∀ name ∈ names, Path.IsName name) ∧
    ∀ (t : FileTree) (place : List String),
      t.locate (Path.outputPath directory unitPath asText) = .ok place →
        place = t.resolve directory ++ names := by
  intro names
  have hnames : ∀ name ∈ names, Path.IsName name :=
    Path.isName_of_mem_resultNames fun _ => Path.isName_of_mem_names
  have hcomponents : Path.components (Path.outputPath directory unitPath asText) =
      Path.components directory ++ names.map .normal := by
    rw [Path.outputPath_eq_join, Path.components_join directory hnames]
  refine ⟨hcomponents, hnames, fun t place hplace => ?_⟩
  rw [FileTree.locate_eq_ok hplace, FileTree.resolve, hcomponents, List.foldl_append,
    Path.foldl_follow_normal]
  rfl

/-- An absolute unit path with steps up, written below a directory that is itself one step up. -/
theorem outputPath_stays_below_of_absolute_path :
    let t : FileTree :=
      { home := ["home", "work"], directories := [["home", "out"], ["home", "out", "a"]] }
    let path := Path.outputPath "../out/." "//a//../../.b.php/." false
    let place := ["home", "out", "a", ".b.php.json"]
    Path.components path = [.up, .normal "out", .normal "a", .normal ".b.php.json"] ∧
      t.locate path = .ok place ∧ place = t.resolve "../out/." ++ ["a", ".b.php.json"] := by
  obtain ⟨hcomponents, -, hplace⟩ :=
    outputPath_stays_below "../out/." "//a//../../.b.php/." false
  exact ⟨hcomponents.trans (by decide), by rfl, hplace _ _ (by rfl)⟩

end SyntaxLowering
