import Mathlib.Data.List.Infix
import Mathlib.Logic.Function.Iterate

/-!
# Lexical paths

Slash-separated paths as words, and what can be said of them without a filesystem.  `clean` is the
shortest path that names the same file as long as no element is a symbolic link: it drops empty
elements and dots, lets a double dot take back the element before it, and keeps the double dots that
nothing is left for, unless the path is rooted.

* `push`, `resolve`, `render`, `clean`, `join` — cleaning as one pass over the elements, with the
  elements that are kept as a stack.
* `relative` — what a list of elements does to any stack: how far up it goes, and which names it then
  goes down; **`resolve_eq`** — it does nothing else.
* `Normal` — the stacks that cleaning leaves behind; **`resolve_render`** — such a stack is read back
  from the path that is made of it, so that **`clean_clean`**.
* `render_append` — names on top of a stack are a path below the path of the stack.
* `leaves` — the relative paths that do not name something below where they start, by their cleaned
  form; **`leaves_iff`** — by what they do.
-/

namespace Lexical.Path

/-! ## Cleaning -/

/-- The element that stays where it is. -/
def dot : List Char := ['.']

/-- The element that goes up. -/
def dotdot : List Char := ['.', '.']

/-- What one element does to the elements kept so far, the last one first. -/
def push (rooted : Bool) (kept : List (List Char)) (e : List Char) : List (List Char) :=
  if e = [] ∨ e = dot then kept
  else if e = dotdot then
    match kept with
    | [] => if rooted then [] else [dotdot]
    | k :: rest => if k = dotdot then dotdot :: k :: rest else rest
  else e :: kept

/-- What a list of elements does to the elements kept so far. -/
def resolve (rooted : Bool) (kept elems : List (List Char)) : List (List Char) :=
  elems.foldl (push rooted) kept

/-- The path of the elements that are kept. -/
def render (rooted : Bool) (kept : List (List Char)) : List Char :=
  if rooted then '/' :: ['/'].intercalate kept.reverse
  else if kept = [] then dot
  else ['/'].intercalate kept.reverse

/-- Whether the path starts at the root. -/
def isRooted (p : List Char) : Bool := p.head? == some '/'

lemma isRooted_append {p q : List Char} (h : p ≠ []) : isRooted (p ++ q) = isRooted p := by
  cases p with
  | nil => exact absurd rfl h
  | cons c p => rfl

/-- What is kept of the elements of a path. -/
def stack (p : List Char) : List (List Char) := resolve (isRooted p) [] (p.splitOn '/')

/-- The cleaned path. -/
def clean (p : List Char) : List Char := render (isRooted p) (stack p)

/-- The paths one below the other, cleaned; empty ones are ignored. -/
def join : List (List Char) → List Char
  | [] => []
  | p :: ps => if p = [] then join ps else clean (['/'].intercalate (p :: ps))

/-- An element that names something. -/
structure IsName (e : List Char) : Prop where
  ne_nil : e ≠ []
  ne_dot : e ≠ dot
  ne_dotdot : e ≠ dotdot
  slash_notMem : '/' ∉ e

/-- An element stays where it is, goes up, or names something. -/
lemma elem_cases {e : List Char} (h : '/' ∉ e) : (e = [] ∨ e = dot) ∨ e = dotdot ∨ IsName e := by
  by_cases hskip : e = [] ∨ e = dot
  · exact .inl hskip
  · by_cases hup : e = dotdot
    · exact .inr (.inl hup)
    · rw [not_or] at hskip
      exact .inr (.inr ⟨hskip.1, hskip.2, hup, h⟩)

lemma push_skip {r : Bool} {kept : List (List Char)} {e : List Char} (h : e = [] ∨ e = dot) :
    push r kept e = kept :=
  if_pos h

lemma push_name {r : Bool} {kept : List (List Char)} {e : List Char} (h : IsName e) :
    push r kept e = e :: kept := by
  simp only [push, h.ne_nil, h.ne_dot, h.ne_dotdot, or_self, if_false]

lemma resolve_append (r : Bool) (kept es fs : List (List Char)) :
    resolve r kept (es ++ fs) = resolve r (resolve r kept es) fs :=
  List.foldl_append

/-- Names go on top of the stack. -/
lemma resolve_names {r : Bool} {kept names : List (List Char)} (h : ∀ n ∈ names, IsName n) :
    resolve r kept names.reverse = names ++ kept := by
  induction names with
  | nil => rfl
  | cons n names ih =>
      rw [List.reverse_cons, resolve_append, ih fun m hm => h m (List.mem_cons_of_mem _ hm)]
      exact push_name (h n List.mem_cons_self)

/-! ## What a list of elements does to a stack -/

/-- Going up by one. -/
def pop (rooted : Bool) (kept : List (List Char)) : List (List Char) := push rooted kept dotdot

lemma pop_nil (r : Bool) : pop r [] = if r then [] else [dotdot] := by cases r <;> decide

lemma pop_dotdot (r : Bool) (kept : List (List Char)) :
    pop r (dotdot :: kept) = dotdot :: dotdot :: kept := by
  simp [pop, push, dotdot, dot]

lemma pop_name {r : Bool} {n : List Char} {kept : List (List Char)} (h : IsName n) :
    pop r (n :: kept) = kept := by
  simp [pop, push, h.ne_dotdot, show dotdot ≠ [] by decide, show dotdot ≠ dot by decide]

/-- One more element behind names that are entered after going up. -/
def walk : List (List Char) × ℕ → List Char → List (List Char) × ℕ
  | (names, ups), e =>
      if e = [] ∨ e = dot then (names, ups)
      else if e = dotdot then
        match names with
        | [] => ([], ups + 1)
        | _ :: rest => (rest, ups)
      else (e :: names, ups)

lemma walk_skip {w : List (List Char) × ℕ} {e : List Char} (h : e = [] ∨ e = dot) :
    walk w e = w :=
  if_pos h

lemma walk_dotdot_nil (ups : ℕ) : walk ([], ups) dotdot = ([], ups + 1) := rfl

lemma walk_dotdot_cons (n : List Char) (names : List (List Char)) (ups : ℕ) :
    walk (n :: names, ups) dotdot = (names, ups) :=
  rfl

lemma walk_name {names : List (List Char)} {ups : ℕ} {e : List Char} (h : IsName e) :
    walk (names, ups) e = (e :: names, ups) := by
  simp only [walk, h.ne_nil, h.ne_dot, h.ne_dotdot, or_self, if_false]

/-- The names that a list of elements enters, the last one first, and how far it goes up before. -/
def relative (elems : List (List Char)) : List (List Char) × ℕ := elems.foldl walk ([], 0)

lemma relative_concat (elems : List (List Char)) (e : List Char) :
    relative (elems ++ [e]) = walk (relative elems) e :=
  List.foldl_concat _ _ _ _

/-- The names are names. -/
lemma relative_names {elems : List (List Char)} (h : ∀ e ∈ elems, '/' ∉ e) :
    ∀ n ∈ (relative elems).1, IsName n := by
  induction elems using List.reverseRecOn with
  | nil => nofun
  | append_singleton elems e ih =>
      have ih := ih fun f hf => h f (List.mem_append_left _ hf)
      rw [relative_concat]
      revert ih
      rcases relative elems with ⟨names, ups⟩
      intro ih
      rcases elem_cases (h e (List.mem_append_right _ (List.mem_singleton_self e))) with
        hskip | rfl | hname
      · rw [walk_skip hskip]
        exact ih
      · cases names with
        | nil => nofun
        | cons n names => exact fun m hm => ih m (List.mem_cons_of_mem n hm)
      · rw [walk_name hname]
        rintro m (_ | ⟨_, hm⟩)
        · exact hname
        · exact ih m hm

/-- **A list of elements goes up, then enters names, and does nothing else to a stack.** -/
lemma resolve_eq {elems : List (List Char)} (h : ∀ e ∈ elems, '/' ∉ e) (r : Bool)
    (kept : List (List Char)) :
    resolve r kept elems = (relative elems).1 ++ (pop r)^[(relative elems).2] kept := by
  induction elems using List.reverseRecOn with
  | nil => rfl
  | append_singleton elems e ih =>
      have h' : ∀ f ∈ elems, '/' ∉ f := fun f hf => h f (List.mem_append_left _ hf)
      have hnames := relative_names h'
      rw [resolve_append, ih h', relative_concat]
      revert hnames
      rcases relative elems with ⟨names, ups⟩
      intro hnames
      show push r _ e = _
      rcases elem_cases (h e (List.mem_append_right _ (List.mem_singleton_self e))) with
        hskip | rfl | hname
      · rw [push_skip hskip, walk_skip hskip]
      · -- A double dot takes back the last name, or goes up once more.
        cases names with
        | nil => rw [walk_dotdot_nil, Function.iterate_succ_apply']; rfl
        | cons n names => exact pop_name (hnames n List.mem_cons_self)
      · rw [push_name hname, walk_name hname]
        rfl

/-- Above the first element of a relative path there are only double dots. -/
lemma pop_iterate_relative (k : ℕ) : (pop false)^[k] [] = List.replicate k dotdot := by
  induction k with
  | zero => rfl
  | succ k ih =>
      rw [Function.iterate_succ_apply', ih]
      cases k with
      | zero => exact pop_nil false
      | succ k => exact pop_dotdot false _

/-- Above the root there is the root. -/
lemma pop_iterate_rooted (k : ℕ) : (pop true)^[k] [] = [] := by
  induction k with
  | zero => rfl
  | succ k ih =>
      rw [Function.iterate_succ_apply', ih]
      exact pop_nil true

/-! ## Cleaned paths -/

/-- The stacks that cleaning leaves behind. -/
def Normal (r : Bool) (kept : List (List Char)) : Prop :=
  ∃ names k, (∀ n ∈ names, IsName n) ∧ kept = names ++ (pop r)^[k] []

lemma slash_notMem_of_mem_splitOn {p e : List Char} (h : e ∈ p.splitOn '/') : '/' ∉ e := by
  induction p generalizing e with
  | nil =>
      rw [List.splitOn_nil, List.mem_singleton] at h
      subst h
      nofun
  | cons c p ih =>
      rw [List.splitOn_cons_eq_if_modifyHead] at h
      split_ifs at h with hc
      · rcases List.mem_cons.mp h with rfl | h
        · nofun
        · exact ih h
      · cases hp : p.splitOn '/' with
        | nil => exact absurd hp (List.splitOn_ne_nil _ _)
        | cons f fs =>
            rw [hp, List.modifyHead_cons] at h
            rcases List.mem_cons.mp h with rfl | h
            · have hf : '/' ∉ f := ih (hp ▸ List.mem_cons_self)
              have hne : ¬ '/' = c := fun heq => hc (by rw [← heq]; rfl)
              simp [hf, hne]
            · exact ih (hp ▸ List.mem_cons_of_mem _ h)

lemma stack_eq (p : List Char) :
    stack p = (relative (p.splitOn '/')).1 ++
      (pop (isRooted p))^[(relative (p.splitOn '/')).2] [] :=
  resolve_eq (fun _ => slash_notMem_of_mem_splitOn) _ _

lemma normal_stack (p : List Char) : Normal (isRooted p) (stack p) :=
  ⟨_, _, relative_names fun _ => slash_notMem_of_mem_splitOn, stack_eq p⟩

lemma Normal.cons {r : Bool} {kept : List (List Char)} {n : List Char} (h : Normal r kept)
    (hn : IsName n) : Normal r (n :: kept) := by
  obtain ⟨names, k, hnames, rfl⟩ := h
  refine ⟨n :: names, k, ?_, rfl⟩
  rintro m (_ | ⟨_, hm⟩)
  · exact hn
  · exact hnames m hm

lemma Normal.append {r : Bool} {kept ns : List (List Char)} (h : Normal r kept)
    (hns : ∀ n ∈ ns, IsName n) : Normal r (ns ++ kept) := by
  induction ns with
  | nil => exact h
  | cons n ns ih =>
      exact (ih fun m hm => hns m (List.mem_cons_of_mem _ hm)).cons (hns n List.mem_cons_self)

lemma Normal.pop_iterate {r : Bool} {kept : List (List Char)} (h : Normal r kept) (k : ℕ) :
    Normal r ((pop r)^[k] kept) := by
  induction k with
  | zero => exact h
  | succ k ih =>
      rw [Function.iterate_succ_apply']
      obtain ⟨names, j, hnames, heq⟩ := ih
      rw [heq]
      cases names with
      | nil => exact ⟨[], j + 1, nofun, (Function.iterate_succ_apply' (pop r) j []).symm⟩
      | cons n names =>
          exact ⟨names, j, fun m hm => hnames m (List.mem_cons_of_mem _ hm),
            pop_name (hnames n List.mem_cons_self)⟩

/-- Neither names nor double dots have a slash in them, and none is empty. -/
lemma Normal.elem {r : Bool} {kept : List (List Char)} (h : Normal r kept) {e : List Char}
    (he : e ∈ kept) : e ≠ [] ∧ '/' ∉ e := by
  obtain ⟨names, k, hnames, rfl⟩ := h
  rcases List.mem_append.mp he with he | he
  · exact ⟨(hnames e he).ne_nil, (hnames e he).slash_notMem⟩
  · cases r with
    | true =>
        rw [pop_iterate_rooted] at he
        cases he
    | false =>
        rw [pop_iterate_relative] at he
        rw [List.eq_of_mem_replicate he]
        decide

/-- A normal stack is what is kept of its own elements. -/
lemma Normal.resolve_reverse {r : Bool} {kept : List (List Char)} (h : Normal r kept) :
    resolve r [] kept.reverse = kept := by
  obtain ⟨names, k, hnames, rfl⟩ := h
  rw [List.reverse_append, resolve_append, resolve_names hnames]
  cases r with
  | true => rw [pop_iterate_rooted]; rfl
  | false =>
      rw [pop_iterate_relative, List.reverse_replicate]
      congr 1
      induction k with
      | zero => rfl
      | succ k ih =>
          rw [List.replicate_succ', resolve_append, ih, ← List.replicate_succ',
            ← pop_iterate_relative, ← pop_iterate_relative, Function.iterate_succ_apply']
          rfl

/-- The first character of a relative path is not a slash. -/
lemma Normal.head_ne_slash {r : Bool} {kept : List (List Char)} (h : Normal r kept) :
    (['/'].intercalate kept.reverse).head? ≠ some '/' := by
  cases hk : kept.reverse with
  | nil => simp
  | cons e es =>
      obtain ⟨hne, hslash⟩ := h.elem (List.mem_reverse.mp (hk ▸ List.mem_cons_self))
      cases e with
      | nil => exact absurd rfl hne
      | cons c e =>
          rw [List.intercalate_cons_cons_left, List.head?_cons]
          rintro heq
          exact hslash (Option.some.inj heq ▸ List.mem_cons_self)

lemma Normal.isRooted_render {r : Bool} {kept : List (List Char)} (h : Normal r kept) :
    isRooted (render r kept) = r := by
  cases r with
  | true => rfl
  | false =>
      by_cases hk : kept = []
      · subst hk
        decide
      · simp only [render, Bool.false_eq_true, if_false, hk, isRooted, beq_eq_false_iff_ne]
        exact h.head_ne_slash

/-- **A normal stack is read back from the path that is made of it.** -/
lemma Normal.stack_render {r : Bool} {kept : List (List Char)} (h : Normal r kept) :
    stack (render r kept) = kept := by
  have hsplit (hk : kept ≠ []) : (['/'].intercalate kept.reverse).splitOn '/' = kept.reverse :=
    List.splitOn_intercalate '/' (fun e he => (h.elem (List.mem_reverse.mp he)).2)
      (by simpa using hk)
  rw [stack, h.isRooted_render]
  by_cases hk : kept = []
  · subst hk
    cases r <;> decide
  · cases r with
    | true =>
        have : render true kept = [] ++ '/' :: ['/'].intercalate kept.reverse := rfl
        rw [this, List.splitOn_append_cons_self, hsplit hk]
        exact h.resolve_reverse
    | false =>
        simp only [render, Bool.false_eq_true, if_false, hk]
        rw [hsplit hk]
        exact h.resolve_reverse

lemma Normal.clean_render {r : Bool} {kept : List (List Char)} (h : Normal r kept) :
    clean (render r kept) = render r kept := by
  rw [clean, h.isRooted_render, h.stack_render]

/-- **Cleaning a cleaned path changes nothing.** -/
theorem clean_clean (p : List Char) : clean (clean p) = clean p := (normal_stack p).clean_render

/-! ## Paths below a path -/

lemma intercalate_append {es fs : List (List Char)} (he : es ≠ []) (hf : fs ≠ []) :
    ['/'].intercalate (es ++ fs) = ['/'].intercalate es ++ '/' :: ['/'].intercalate fs := by
  induction es with
  | nil => exact absurd rfl he
  | cons e es ih =>
      cases es with
      | nil =>
          rw [List.singleton_append, List.intercalate_cons_of_ne_nil hf, List.intercalate_singleton,
            List.append_assoc]
          rfl
      | cons e' es =>
          rw [List.cons_append, List.intercalate_cons_of_ne_nil (by simp), ih (by simp),
            List.intercalate_cons_cons]
          simp

/-- Names on top of a stack make a path below the path of the stack. -/
lemma render_append {r : Bool} {kept names : List (List Char)} (hk : kept ≠ []) (hn : names ≠ []) :
    render r (names ++ kept) = render r kept ++ '/' :: ['/'].intercalate names.reverse := by
  have hsplit : ['/'].intercalate (names ++ kept).reverse =
      ['/'].intercalate kept.reverse ++ '/' :: ['/'].intercalate names.reverse := by
    rw [List.reverse_append, intercalate_append (by simpa using hk) (by simpa using hn)]
  cases r with
  | true => exact congrArg _ hsplit
  | false => simpa only [render, Bool.false_eq_true, if_false, List.append_eq_nil_iff, hk, and_false]

/-- The last name ends the path, and what is before it does not depend on it. -/
lemma render_cons (r : Bool) (kept : List (List Char)) :
    ∃ before, ∀ n, render r (n :: kept) = before ++ n := by
  by_cases hk : kept = []
  · subst hk
    have hone : ∀ n : List Char, ['/'].intercalate [n].reverse = n := fun _ =>
      List.intercalate_singleton
    cases r with
    | true => exact ⟨['/'], fun n => congrArg (List.cons '/') (hone n)⟩
    | false => exact ⟨[], hone⟩
  · refine ⟨render r kept ++ ['/'], fun n => ?_⟩
    have hone : render r ([n] ++ kept) = render r kept ++ '/' :: ['/'].intercalate [n].reverse :=
      render_append hk (by simp)
    rwa [List.singleton_append, List.reverse_singleton, List.intercalate_singleton,
      List.append_cons] at hone

/-- A name below a directory. -/
lemma join_name (p : List Char) {n : List Char} (hn : IsName n) :
    join [p, n] = render (isRooted p) (n :: stack p) := by
  have hone : n.splitOn '/' = [n] := List.splitOn_eq_singleton hn.slash_notMem
  by_cases hp : p = []
  · subst hp
    have hroot : isRooted n = false := by
      cases n with
      | nil => rfl
      | cons c n =>
          have : ¬ c = '/' := fun h => hn.slash_notMem (h ▸ List.mem_cons_self)
          simpa [isRooted] using this
    have hstack : stack n = [n] := by
      rw [stack, hone]
      exact push_name hn
    simp only [join, if_true, hn.ne_nil, if_false, List.intercalate_singleton, clean, hroot, hstack]
    rfl
  · simp only [join, hp, if_false, List.intercalate_cons_cons, List.intercalate_singleton,
      List.append_assoc, List.singleton_append, clean, stack, isRooted_append hp, List.splitOn_append_cons_self,
      hone, resolve_append]
    exact congrArg _ (push_name hn)

/-- Any path below a cleaned one: it goes up from there and then enters names. -/
lemma join_render {r : Bool} {kept : List (List Char)} (h : Normal r kept) (p : List Char) :
    join [render r kept, p] =
      render r ((relative (p.splitOn '/')).1 ++ (pop r)^[(relative (p.splitOn '/')).2] kept) := by
  have hne : render r kept ≠ [] := by
    intro hnil
    have hroot := h.isRooted_render
    have hstack := h.stack_render
    rw [hnil] at hroot hstack
    obtain rfl : r = false := hroot.symm
    obtain rfl : kept = [] := hstack.symm
    cases hnil
  have hroot : isRooted (render r kept ++ '/' :: p) = r := by
    rw [isRooted_append hne, h.isRooted_render]
  have hstack : resolve r [] ((render r kept).splitOn '/') = kept := by
    have := h.stack_render
    rwa [stack, h.isRooted_render] at this
  simp only [join, hne, if_false, List.intercalate_cons_cons, List.intercalate_singleton,
    List.append_assoc, List.singleton_append, clean, stack, hroot, List.splitOn_append_cons_self,
    resolve_append, hstack]
  rw [resolve_eq fun _ => slash_notMem_of_mem_splitOn]

/-! ## Paths that go up -/

/-- The path without the slashes that it starts with. -/
def trimSlashes (p : List Char) : List Char := p.dropWhile (· == '/')

lemma isRooted_trimSlashes (p : List Char) : isRooted (trimSlashes p) = false := by
  rw [isRooted, beq_eq_false_iff_ne]
  intro h
  have := List.head?_dropWhile_not (· == '/') p
  rw [trimSlashes] at h
  rw [h] at this
  cases this

/-- Slashes in front separate nothing. -/
lemma relative_trimSlashes (p : List Char) :
    relative ((trimSlashes p).splitOn '/') = relative (p.splitOn '/') := by
  induction p with
  | nil => rfl
  | cons c p ih =>
      by_cases hc : c = '/'
      · subst hc
        rw [trimSlashes, List.dropWhile_cons_of_pos (by rfl), ← trimSlashes, ih,
          List.splitOn_cons_eq_if_modifyHead]
        rfl
      · rw [trimSlashes, List.dropWhile_cons_of_neg (by simpa using hc)]

/-- Whether a relative path is nothing but where it starts, or goes up from there. -/
def leaves (p : List Char) : Prop :=
  clean p = dot ∨ clean p = dotdot ∨ dotdot ++ ['/'] <+: clean p

/-- **Exactly the relative paths that enter a name without going up do not leave.** -/
lemma leaves_iff {p : List Char} (h : isRooted p = false) :
    leaves p ↔ ¬ ((relative (p.splitOn '/')).2 = 0 ∧ (relative (p.splitOn '/')).1 ≠ []) := by
  have hnames := relative_names fun e (he : e ∈ p.splitOn '/') => slash_notMem_of_mem_splitOn he
  have hclean : clean p = render false ((relative (p.splitOn '/')).1 ++
      List.replicate (relative (p.splitOn '/')).2 dotdot) := by
    rw [clean, stack_eq, h, pop_iterate_relative]
  rw [leaves, hclean]
  revert hnames
  rcases relative (p.splitOn '/') with ⟨names, ups⟩
  intro hnames
  cases ups with
  | zero =>
      simp only [List.replicate_zero, List.append_nil, true_and, not_not]
      refine ⟨fun hleaves => by_contra fun hne => ?_, fun hnil => .inl (by rw [hnil]; rfl)⟩
      -- The first element of the path is a name, so it is neither of the two.
      have hsplit : (['/'].intercalate names.reverse).splitOn '/' = names.reverse :=
        List.splitOn_intercalate '/'
          (fun e he => (hnames e (List.mem_reverse.mp he)).slash_notMem) (by simpa using hne)
      have hmem : ∀ e, e ∈ names.reverse → IsName e := fun e he => hnames e (List.mem_reverse.mp he)
      simp only [render, Bool.false_eq_true, if_false, hne] at hleaves
      rcases hleaves with heq | heq | ⟨t, ht⟩
      · rw [heq] at hsplit
        exact (hmem dot (hsplit ▸ by decide)).ne_dot rfl
      · rw [heq] at hsplit
        exact (hmem dotdot (hsplit ▸ by decide)).ne_dotdot rfl
      · rw [← ht, List.append_assoc, List.singleton_append, List.splitOn_append_cons_self] at hsplit
        exact (hmem dotdot (hsplit ▸ List.mem_append_left _ (by decide))).ne_dotdot rfl
  | succ ups =>
      simp only [Nat.succ_ne_zero, false_and, not_false_eq_true, iff_true]
      right
      have hne : names ++ List.replicate (ups + 1) dotdot ≠ [] := by simp
      have hrev : (names ++ List.replicate (ups + 1) dotdot).reverse =
          dotdot :: (List.replicate ups dotdot ++ names.reverse) := by
        rw [List.reverse_append, List.reverse_replicate]
        rfl
      simp only [render, Bool.false_eq_true, if_false, hne, hrev]
      cases hrest : List.replicate ups dotdot ++ names.reverse with
      | nil => exact .inl (List.intercalate_singleton)
      | cons e es =>
          right
          rw [List.intercalate_cons_cons]
          exact List.prefix_append _ _

/-! ## The last element -/

/-- A path determines what is in front of its last element, and the element. -/
lemma append_slash_inj {p q a b : List Char} (ha : '/' ∉ a) (hb : '/' ∉ b)
    (h : p ++ '/' :: a = q ++ '/' :: b) : p = q ∧ a = b := by
  have htake : ∀ {p a : List Char}, '/' ∉ a →
      (p ++ '/' :: a).reverse.takeWhile (· ≠ '/') = a.reverse := by
    intro p a ha
    have hall : ∀ c ∈ a.reverse, decide (c ≠ '/') = true := fun c hc =>
      decide_eq_true fun heq => ha (by simpa [heq] using hc)
    rw [List.reverse_append, List.reverse_cons, List.append_assoc, List.takeWhile_append_of_pos hall]
    simp
  obtain rfl : a = b := List.reverse_injective ((htake ha).symm.trans (h ▸ htake hb))
  exact ⟨List.append_cancel_right h, rfl⟩

end Lexical.Path
