import Blobster.Driver.File
import Blobster.Lexical.Path

/-!
# Where the file driver puts a key

`paths` and `securejoin` (`file/file.go`) on the strings they work on.  A key is joined onto the
directories `data` and `meta` of the bucket's root, and each of the two results has to be below the
directory that it was joined onto, as a string.

A key that goes up from `data` can come back into it by name, and one that goes up from `meta` can come
back into that.  No key does both: above the two directories they are in the same place, and the two
tests then ask of one path that it starts with two different names.

* `Directory` — a bucket with its root; `securejoin`, `Directory.paths` with the texts of their errors,
  `Directory.newTemp`.
* `Directory.below` — a path of names below the root; `securejoin_inside`, `securejoin_outside` — what
  becomes of a key that does not go up, and of one that does.
* **`Directory.paths_ok_iff`** — `paths` in terms of what the key does to a path, and
  `Directory.paths_refines` — `Bucket.paths` of `Blobster.Driver.File` has the same keys and tells the
  same files apart.
* **`no_key_escapes`** — containment, and exactly which keys are refused.
-/

namespace Blobster.FileDriver

open Lexical Lexical.Path

/-! ## The source -/

/-- `filepath.Clean`. -/
def filepathClean (p : String) : String := String.ofList (Path.clean p.toList)

/-- `filepath.Join`. -/
def filepathJoin (elems : List String) : String :=
  String.ofList (Path.join (elems.map String.toList))

/-- `filepath.FromSlash`, where the separator is a slash. -/
def filepathFromSlash (p : String) : String := p

/-- `strings.HasPrefix`. -/
def hasPrefix (s pref : String) : Bool := pref.toList.isPrefixOf s.toList

def dataSubdir : String := "data"

def metaSubdir : String := "meta"

def tempSubdir : String := "tmp"

/-- The text of an error that wraps `ErrInvalidOption`. -/
def invalidOption (text : String) : String := "blobster: invalid option: " ++ text

/-- `securejoin`. -/
def securejoin (base rel : String) : Except String String :=
  let clean := filepathClean (filepathJoin [base, rel])
  let baseClean := filepathClean base
  if clean ≠ baseClean ∧ ¬ hasPrefix clean (baseClean ++ "/") then
    .error (invalidOption "key escapes bucket root")
  else if clean = baseClean then .error (invalidOption "key resolves to bucket root")
  else .ok clean

/-- A `Bucket` with its root directory. -/
structure Directory extends Bucket where
  root : String

/-- `objectPaths`. -/
structure ObjectPaths where
  data : String
  side : String
deriving DecidableEq

namespace Directory

variable (b : Directory)

/-- `objectKey`. -/
def objectKey (key : String) : String := b.pref ++ key

/-- `paths`. -/
def paths (key : String) : Except String ObjectPaths :=
  let full := b.objectKey key
  if full = "" then .error (invalidOption "empty key")
  else
    let rel := filepathFromSlash full
    match securejoin (filepathJoin [b.root, dataSubdir]) rel with
    | .error e => .error (e ++ ": " ++ key)
    | .ok data =>
        match securejoin (filepathJoin [b.root, metaSubdir]) rel with
        | .error e => .error (e ++ ": " ++ key)
        | .ok side => .ok ⟨data, side⟩

/-- `newTemp`: the file that `os.CreateTemp` makes in the temporary directory, with the random part of
its name. -/
def newTemp (random : String) : String := filepathJoin [b.root, tempSubdir] ++ "/w-" ++ random

end Directory

example : (Directory.mk ⟨"sub/"⟩ "/srv//b/.").paths "a/../../x" =
    .ok ⟨"/srv/b/data/x", "/srv/b/meta/x"⟩ := by decide +kernel

example : (Directory.mk ⟨""⟩ "/srv/b").paths "../data/x" =
    .error "blobster: invalid option: key escapes bucket root: ../data/x" := by decide +kernel

/-! ## A path below one of the directories -/

/-- The names of the three directories. -/
def IsSubdir (dir : String) : Prop := dir = dataSubdir ∨ dir = metaSubdir ∨ dir = tempSubdir

lemma IsSubdir.isName {dir : String} (h : IsSubdir dir) : IsName dir.toList := by
  rcases h with rfl | rfl | rfl
  · exact ⟨by decide, by decide, by decide, by decide⟩
  · exact ⟨by decide, by decide, by decide, by decide⟩
  · exact ⟨by decide, by decide, by decide, by decide⟩

/-- What a key does to a path: the names it enters, the last one first, and how far it goes up. -/
def relativeOf (full : String) : List (List Char) × ℕ := relative (full.toList.splitOn '/')

lemma relativeOf_names (full : String) : ∀ n ∈ (relativeOf full).1, IsName n :=
  relative_names fun _ => slash_notMem_of_mem_splitOn

namespace Directory

variable (b : Directory)

/-- What is kept of the root. -/
def rootStack : List (List Char) := stack b.root.toList

/-- The path of names below the root, the last one first. -/
def below (names : List (List Char)) : String :=
  String.ofList (render (isRooted b.root.toList) (names ++ b.rootStack))

variable {b}

lemma normal_below {names : List (List Char)} (h : ∀ n ∈ names, IsName n) :
    Normal (isRooted b.root.toList) (names ++ b.rootStack) :=
  (normal_stack _).append h

lemma filepathClean_below {names : List (List Char)} (h : ∀ n ∈ names, IsName n) :
    filepathClean (b.below names) = b.below names := by
  rw [filepathClean, below, String.toList_ofList, (normal_below h).clean_render]

/-- Different names are different paths. -/
lemma below_inj {names names' : List (List Char)} (h : ∀ n ∈ names, IsName n)
    (h' : ∀ n ∈ names', IsName n) : b.below names = b.below names' ↔ names = names' := by
  refine ⟨fun heq => ?_, fun heq => by rw [heq]⟩
  have hstack := congrArg (fun p : String => stack p.toList) heq
  simp only [below, String.toList_ofList, (normal_below h).stack_render,
    (normal_below h').stack_render] at hstack
  exact List.append_cancel_right hstack

lemma join_subdir {dir : String} (h : IsSubdir dir) :
    filepathJoin [b.root, dir] = b.below [dir.toList] := by
  rw [filepathJoin, List.map_cons, List.map_cons, List.map_nil, join_name _ h.isName]
  rfl

/-- Names below a directory make a path below it. -/
lemma below_cons {dir : List Char} {names : List (List Char)} (h : names ≠ []) :
    b.below (names ++ [dir]) =
      b.below [dir] ++ "/" ++ String.ofList (['/'].intercalate names.reverse) := by
  rw [← String.toList_inj, below, below, List.append_assoc,
    render_append (show [dir] ++ b.rootStack ≠ [] by simp) h]
  simp

/-- What a key becomes below a directory. -/
lemma join_below {dir : String} (h : IsSubdir dir) (full : String) :
    filepathClean (filepathJoin [b.below [dir.toList], full]) =
      String.ofList (render (isRooted b.root.toList) ((relativeOf full).1 ++
        (pop (isRooted b.root.toList))^[(relativeOf full).2] (dir.toList :: b.rootStack))) := by
  have hnormal : Normal (isRooted b.root.toList) (dir.toList :: b.rootStack) :=
    (normal_stack _).cons h.isName
  rw [filepathClean, filepathJoin, List.map_cons, List.map_cons, List.map_nil, below,
    String.toList_ofList, String.toList_ofList, List.singleton_append, join_render hnormal,
    ((hnormal.pop_iterate _).append (relative_names fun _ => slash_notMem_of_mem_splitOn)).clean_render]
  rfl

variable (b) in
/-- The place of a key that goes up to the root or above it, wherever below the root it starts. -/
def outside (full : String) : String :=
  String.ofList (render (isRooted b.root.toList) ((relativeOf full).1 ++
    (pop (isRooted b.root.toList))^[(relativeOf full).2 - 1] b.rootStack))

/-- What `securejoin` makes of a key that does not go up. -/
lemma securejoin_inside {dir full : String} (hdir : IsSubdir dir) (hups : (relativeOf full).2 = 0) :
    securejoin (filepathJoin [b.root, dir]) full =
      if (relativeOf full).1 = [] then .error (invalidOption "key resolves to bucket root")
      else .ok (b.below ((relativeOf full).1 ++ [dir.toList])) := by
  have hname : ∀ n ∈ [dir.toList], IsName n := fun n hn => List.mem_singleton.mp hn ▸ hdir.isName
  have hclean : filepathClean (filepathJoin [b.below [dir.toList], full]) =
      b.below ((relativeOf full).1 ++ [dir.toList]) := by
    rw [join_below hdir, hups, below, List.append_assoc]
    rfl
  simp only [securejoin, join_subdir hdir, hclean, filepathClean_below hname]
  by_cases hnil : (relativeOf full).1 = []
  · simp [hnil]
  · have hne : b.below ((relativeOf full).1 ++ [dir.toList]) ≠ b.below [dir.toList] := by
      rw [Ne, below_inj (fun n hn => ?_) hname]
      · simpa using hnil
      · rcases List.mem_append.mp hn with hn | hn
        · exact relativeOf_names full n hn
        · exact hname n hn
    have hprefix : hasPrefix (b.below ((relativeOf full).1 ++ [dir.toList]))
        (b.below [dir.toList] ++ "/") = true := by
      rw [below_cons hnil, hasPrefix, List.isPrefixOf_iff_prefix]
      simp only [String.toList_append]
      exact List.prefix_append _ _
    simp only [hne, hprefix, hnil, ne_eq, not_false_eq_true, not_true_eq_false, and_false, if_false]

/-- What `securejoin` lets through of the keys that go up: those that come back by name. -/
lemma securejoin_outside {dir full clean : String} (hdir : IsSubdir dir)
    (hups : (relativeOf full).2 ≠ 0)
    (hok : securejoin (filepathJoin [b.root, dir]) full = .ok clean) :
    hasPrefix (b.outside full) (b.below [dir.toList] ++ "/") = true := by
  have hname : ∀ n ∈ [dir.toList], IsName n := fun n hn => List.mem_singleton.mp hn ▸ hdir.isName
  have hclean : filepathClean (filepathJoin [b.below [dir.toList], full]) = b.outside full := by
    obtain ⟨k, hk⟩ := Nat.exists_eq_succ_of_ne_zero hups
    rw [join_below hdir, outside, hk, Function.iterate_succ_apply, pop_name hdir.isName,
      Nat.succ_sub_one]
  simp only [securejoin, join_subdir hdir, hclean, filepathClean_below hname] at hok
  split_ifs at hok with hescapes hroot
  by_contra hprefix
  exact hescapes ⟨hroot, hprefix⟩

/-- No path starts with the names of two of the directories. -/
lemma not_below_both {p : String} (hdata : hasPrefix p (b.below [dataSubdir.toList] ++ "/") = true)
    (hside : hasPrefix p (b.below [metaSubdir.toList] ++ "/") = true) : False := by
  obtain ⟨before, hbefore⟩ := render_cons (isRooted b.root.toList) b.rootStack
  rw [hasPrefix, List.isPrefixOf_iff_prefix, below, List.singleton_append, hbefore,
    String.toList_append, String.toList_ofList] at hdata hside
  obtain ⟨s, hs⟩ := hdata
  obtain ⟨t, ht⟩ := hside
  rw [← ht, List.append_assoc, List.append_assoc, List.append_assoc, List.append_assoc,
    List.append_right_inj] at hs
  cases (List.cons.inj hs).1

/-- **`paths` accepts exactly the keys that enter a name without going up**, and puts them there. -/
theorem paths_ok_iff {key : String} {p : ObjectPaths} :
    b.paths key = .ok p ↔
      (relativeOf (b.objectKey key)).2 = 0 ∧ (relativeOf (b.objectKey key)).1 ≠ [] ∧
        p = ⟨b.below ((relativeOf (b.objectKey key)).1 ++ [dataSubdir.toList]),
          b.below ((relativeOf (b.objectKey key)).1 ++ [metaSubdir.toList])⟩ := by
  simp only [paths, filepathFromSlash]
  generalize b.objectKey key = full
  by_cases hempty : full = ""
  · subst hempty
    simp [show (relativeOf "").1 = [] by decide]
  · simp only [hempty, if_false]
    by_cases hups : (relativeOf full).2 = 0
    · rw [securejoin_inside (.inl rfl) hups, securejoin_inside (.inr (.inl rfl)) hups]
      by_cases hnil : (relativeOf full).1 = []
      · simp [hnil]
      · simp [hnil, hups, eq_comm]
    · simp only [hups, false_and, iff_false]
      intro hok
      cases hdata : securejoin (filepathJoin [b.root, dataSubdir]) full with
      | error e => simp [hdata] at hok
      | ok data =>
          cases hside : securejoin (filepathJoin [b.root, metaSubdir]) full with
          | error e => simp [hdata, hside] at hok
          | ok side =>
              exact not_below_both (securejoin_outside (.inl rfl) hups hdata)
                (securejoin_outside (.inr (.inl rfl)) hups hside)

end Directory

/-! ## The model of the files of a bucket -/

section CleanRel

variable {c : String} {rest stack : List String}

lemma cleanRel_skip (h : c = "" ∨ c = ".") : cleanRel (c :: rest) stack = cleanRel rest stack := by
  cases stack <;> simp [cleanRel, h]

lemma cleanRel_dotdot_nil : cleanRel (".." :: rest) [] = none := by simp [cleanRel]

lemma cleanRel_dotdot_cons : cleanRel (".." :: rest) (c :: stack) = cleanRel rest stack := by
  simp [cleanRel]

lemma cleanRel_name (hskip : ¬ (c = "" ∨ c = ".")) (hup : c ≠ "..") :
    cleanRel (c :: rest) stack = cleanRel rest (c :: stack) := by
  cases stack <;> simp [cleanRel, hskip, hup]

end CleanRel

/-- Walking on never takes back that a path has gone up. -/
lemma ups_le_walk (elems : List (List Char)) (w : List (List Char) × ℕ) :
    w.2 ≤ (elems.foldl walk w).2 := by
  induction elems generalizing w with
  | nil => exact le_rfl
  | cons e elems ih =>
      refine le_trans ?_ (ih (walk w e))
      rcases w with ⟨names, ups⟩
      simp only [walk]
      split_ifs
      · exact le_rfl
      · cases names <;> simp
      · exact le_rfl

/-- The components that `cleanRel` keeps are the names that a key enters, unless it goes up. -/
lemma cleanRel_eq {elems : List (List Char)} (h : ∀ e ∈ elems, '/' ∉ e)
    (names : List (List Char)) :
    cleanRel (elems.map String.ofList) (names.map String.ofList) =
      if (elems.foldl walk (names, 0)).2 = 0 then
        some ((elems.foldl walk (names, 0)).1.reverse.map String.ofList)
      else none := by
  induction elems generalizing names with
  | nil => simp [cleanRel]
  | cons e elems ih =>
      have ih := ih fun f hf => h f (List.mem_cons_of_mem _ hf)
      rw [List.map_cons, List.foldl_cons]
      rcases elem_cases (h e List.mem_cons_self) with hskip | rfl | hname
      · rw [walk_skip hskip, ← ih, cleanRel_skip]
        exact hskip.imp (congrArg String.ofList) (congrArg String.ofList)
      · cases names with
        | nil =>
            rw [walk_dotdot_nil, if_neg (by have := ups_le_walk elems ([], 0 + 1); omega)]
            exact cleanRel_dotdot_nil
        | cons n names => rw [walk_dotdot_cons, ← ih]; exact cleanRel_dotdot_cons
      · rw [walk_name hname, ← ih, List.map_cons]
        refine cleanRel_name (not_or.mpr ⟨?_, ?_⟩) ?_
        · exact fun heq => hname.ne_nil (String.ofList_inj.mp (heq.trans String.ofList_nil.symm))
        · exact fun heq => hname.ne_dot (String.ofList_inj.mp heq)
        · exact fun heq => hname.ne_dotdot (String.ofList_inj.mp heq)

lemma Bucket.paths_ok_iff {b : Bucket} {key : String} {rel : List String} :
    b.paths key = .ok rel ↔ (relativeOf (b.pref ++ key)).2 = 0 ∧
      (relativeOf (b.pref ++ key)).1 ≠ [] ∧
      rel = (relativeOf (b.pref ++ key)).1.reverse.map String.ofList := by
  simp only [Bucket.paths]
  generalize b.pref ++ key = full
  have hrel : cleanRel ((full.toList.splitOn '/').map String.ofList) [] =
      if (relativeOf full).2 = 0 then some ((relativeOf full).1.reverse.map String.ofList)
      else none :=
    cleanRel_eq (fun _ => slash_notMem_of_mem_splitOn) []
  by_cases hempty : full = ""
  · subst hempty
    simp [show (relativeOf "").1 = [] by decide]
  · simp only [hempty, if_false, hrel]
    by_cases hups : (relativeOf full).2 = 0
    · simp only [hups, if_true, true_and]
      by_cases hnil : (relativeOf full).1 = []
      · simp [hnil]
      · cases hmap : (relativeOf full).1.reverse.map String.ofList with
        | nil => simp [hnil] at hmap
        | cons c rest => simp [hnil, eq_comm]
    · simp [hups]

/-- **`Bucket.paths` has the keys that `paths` has, and the components of a file's path are those that
it has below the directory it is in.** -/
theorem Directory.paths_refines {b : Directory} {key : String} {p : ObjectPaths} :
    b.paths key = .ok p ↔ ∃ rel, b.toBucket.paths key = .ok rel ∧
      p = ⟨b.below (rel.reverse.map String.toList ++ [dataSubdir.toList]),
        b.below (rel.reverse.map String.toList ++ [metaSubdir.toList])⟩ := by
  have hback : ∀ names : List (List Char),
      (names.reverse.map String.ofList).reverse.map String.toList = names := by
    intro names
    simp [List.map_reverse, Function.comp_def]
  simp only [paths_ok_iff, Bucket.paths_ok_iff, objectKey]
  constructor
  · rintro ⟨hups, hne, rfl⟩
    exact ⟨_, ⟨hups, hne, rfl⟩, by rw [hback]⟩
  · rintro ⟨rel, ⟨hups, hne, rfl⟩, rfl⟩
    exact ⟨hups, hne, by rw [hback]⟩

/-! ## Containment -/

/-- The key without the slashes that it starts with, cleaned. -/
def cleanedKey (full : String) : String :=
  filepathClean (String.ofList (trimSlashes full.toList))

lemma cleanedKey_eq {full : String} (hups : (relativeOf full).2 = 0)
    (hne : (relativeOf full).1 ≠ []) :
    cleanedKey full = String.ofList (['/'].intercalate (relativeOf full).1.reverse) := by
  rw [cleanedKey, filepathClean, String.toList_ofList, clean, stack_eq, isRooted_trimSlashes,
    relative_trimSlashes]
  change String.ofList (render false ((relativeOf full).1 ++ (pop false)^[(relativeOf full).2] [])) = _
  rw [hups, Function.iterate_zero_apply, List.append_nil, render, if_neg Bool.false_ne_true, if_neg hne]

/-- A path is strictly below a directory: it is the path of the directory and then only names. -/
structure StrictlyBelow (dir p rel : String) : Prop where
  eq : p = dir ++ "/" ++ rel
  cleaned : filepathClean p = p
  names : ∀ e ∈ rel.toList.splitOn '/', IsName e

lemma Directory.strictlyBelow {b : Directory} {dir full : String} (hdir : IsSubdir dir)
    (hups : (relativeOf full).2 = 0) (hne : (relativeOf full).1 ≠ []) :
    StrictlyBelow (filepathJoin [b.root, dir])
      (b.below ((relativeOf full).1 ++ [dir.toList])) (cleanedKey full) := by
  have hnames := relativeOf_names full
  refine ⟨?_, filepathClean_below fun n hn => ?_, fun e he => ?_⟩
  · rw [join_subdir hdir, below_cons hne, cleanedKey_eq hups hne]
  · rcases List.mem_append.mp hn with hn | hn
    · exact hnames n hn
    · exact List.mem_singleton.mp hn ▸ hdir.isName
  · rw [cleanedKey_eq hups hne, String.toList_ofList, List.splitOn_intercalate '/'
      (fun n hn => (hnames n (List.mem_reverse.mp hn)).slash_notMem) (by simpa using hne)] at he
    exact hnames e (List.mem_reverse.mp he)

namespace Directory

variable {b : Directory} {names : List (List Char)}

/-- A data path and a temporary file differ in the first character behind the root. -/
lemma below_data_ne_newTemp {random : String} (hne : names ≠ []) :
    b.below (names ++ [dataSubdir.toList]) ≠ b.newTemp random := by
  intro heq
  obtain ⟨before, hbefore⟩ := render_cons (isRooted b.root.toList) b.rootStack
  have hbelow : ∀ n, b.below [n] = String.ofList (before ++ n) := fun n =>
    congrArg String.ofList (hbefore n)
  rw [below_cons hne, newTemp, join_subdir (.inr (.inr rfl)), hbelow, hbelow,
    ← String.toList_inj] at heq
  simp only [String.toList_append, String.toList_ofList, List.append_assoc,
    List.append_right_inj] at heq
  cases (List.cons.inj heq).1

lemma below_ne_root (h : ∀ n ∈ names, IsName n) (hne : names ≠ []) : b.below names ≠ b.root := by
  intro heq
  have hstack : stack (b.below names).toList = b.rootStack := by rw [heq]; rfl
  rw [below, String.toList_ofList, (normal_below h).stack_render] at hstack
  exact hne (List.self_eq_append_left.mp hstack.symm)

lemma below_ne_clean_root (h : ∀ n ∈ names, IsName n) (hne : names ≠ []) :
    b.below names ≠ filepathClean b.root := by
  intro heq
  have hroot : filepathClean b.root = b.below [] := rfl
  rw [hroot] at heq
  exact hne ((below_inj h fun n hn => absurd hn List.not_mem_nil).mp heq)

end Directory

/-- The keys that `paths` refuses, by their cleaned form. -/
lemma refused_iff (full : String) :
    ¬ ((relativeOf full).2 = 0 ∧ (relativeOf full).1 ≠ []) ↔ cleanedKey full = "." ∨
      cleanedKey full = ".." ∨ hasPrefix (cleanedKey full) "../" = true := by
  have hleaves := leaves_iff (isRooted_trimSlashes full.toList)
  rw [relative_trimSlashes] at hleaves
  rw [hasPrefix, List.isPrefixOf_iff_prefix, cleanedKey, filepathClean, String.toList_ofList,
    String.toList_ofList]
  refine hleaves.symm.trans (or_congr ?_ (or_congr ?_ ?_))
  · exact String.ofList_inj.symm
  · exact String.ofList_inj.symm
  · rw [String.toList_ofList]
    exact Iff.rfl

/-- **No key escapes the bucket directory.**  Whenever `paths` succeeds, the two paths are strictly below
`root/data` and `root/meta`, with the cleaned key as the part below; no data path is a metadata path, a
temporary file or one of the directories, for any two keys of buckets with one root; and `paths` fails
exactly for the empty key and the keys that go up or nowhere. -/
theorem no_key_escapes (b : Directory) (key : String) :
    (∀ p, b.paths key = .ok p →
      StrictlyBelow (filepathJoin [b.root, dataSubdir]) p.data (cleanedKey (b.objectKey key)) ∧
      StrictlyBelow (filepathJoin [b.root, metaSubdir]) p.side (cleanedKey (b.objectKey key)) ∧
      (∀ pref key' p', (Directory.mk ⟨pref⟩ b.root).paths key' = .ok p' → p.data ≠ p'.side) ∧
      (∀ random, p.data ≠ b.newTemp random) ∧
      (∀ dir, IsSubdir dir → p.data ≠ filepathJoin [b.root, dir]) ∧
      p.data ≠ b.root ∧ p.data ≠ filepathClean b.root) ∧
    ((∃ e, b.paths key = .error e) ↔ b.objectKey key = "" ∨ cleanedKey (b.objectKey key) = "." ∨
      cleanedKey (b.objectKey key) = ".." ∨
      hasPrefix (cleanedKey (b.objectKey key)) "../" = true) := by
  have hnames := relativeOf_names (b.objectKey key)
  refine ⟨fun p hp => ?_, ?_⟩
  · obtain ⟨hups, hne, rfl⟩ := Directory.paths_ok_iff.mp hp
    have hall : ∀ n ∈ (relativeOf (b.objectKey key)).1 ++ [dataSubdir.toList], IsName n := by
      intro n hn
      rcases List.mem_append.mp hn with hn | hn
      · exact hnames n hn
      · exact List.mem_singleton.mp hn ▸ IsSubdir.isName (.inl rfl)
    refine ⟨Directory.strictlyBelow (.inl rfl) hups hne,
      Directory.strictlyBelow (.inr (.inl rfl)) hups hne, ?_, ?_, ?_, ?_, ?_⟩
    · intro pref key' p' hp' heq
      obtain ⟨-, -, rfl⟩ := Directory.paths_ok_iff.mp hp'
      refine absurd ((Directory.below_inj hall fun n hn => ?_).mp heq) fun h => ?_
      · rcases List.mem_append.mp hn with hn | hn
        · exact relativeOf_names _ n hn
        · exact List.mem_singleton.mp hn ▸ IsSubdir.isName (.inr (.inl rfl))
      · have hlast := congrArg List.getLast? h
        rw [List.getLast?_concat, List.getLast?_concat] at hlast
        exact absurd (Option.some.inj hlast) (by decide)
    · exact fun random => Directory.below_data_ne_newTemp hne
    · intro dir hdir heq
      rw [Directory.join_subdir hdir, Directory.below_inj hall fun n hn =>
        List.mem_singleton.mp hn ▸ hdir.isName] at heq
      have hlen := congrArg List.length heq
      rw [List.length_append] at hlen
      exact hne (List.length_eq_zero_iff.mp (by simpa using hlen))
    · exact Directory.below_ne_root hall (by simp)
    · exact Directory.below_ne_clean_root hall (by simp)
  · have herror : (∃ e, b.paths key = .error e) ↔ ¬ ∃ p, b.paths key = .ok p := by
      cases b.paths key <;> simp
    rw [herror]
    simp only [Directory.paths_ok_iff, exists_and_left, exists_eq, and_true]
    rw [refused_iff]
    refine ⟨.inr, fun h => h.elim (fun hempty => ?_) id⟩
    rw [hempty]
    exact .inl (by decide)

/-- A key that goes up and down again inside the bucket. -/
theorem no_key_escapes_updown :
    ∃ p, (Directory.mk ⟨"sub/"⟩ "/srv//b/.").paths "a/../../x" = .ok p ∧
      StrictlyBelow "/srv/b/data" p.data "x" :=
  ⟨⟨"/srv/b/data/x", "/srv/b/meta/x"⟩, by decide +kernel,
    ((no_key_escapes (Directory.mk ⟨"sub/"⟩ "/srv//b/.") "a/../../x").1 _ (by decide +kernel)).1⟩

end Blobster.FileDriver
