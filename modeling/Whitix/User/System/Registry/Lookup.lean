import Whitix.Support.Run
import Whitix.User.System.Registry.Model

/-!
# Paths of the registry

The registry is meant to be a tree map: each key set has a path, a sequence of
names, and cases do not matter.  This module states what that means, and what a
walk along the components of a path comes to.
-/

namespace Whitix.RegServer

open Support List Nat Option UInt8

/-! ## Names -/

/-- A name without regard to case. -/
def lower (name : List UInt8) : List UInt8 := name.map tolower

/-- A component of a path: it is not empty, has no slash and no zero byte, and is
shorter than the memory. -/
structure IsName (name : List UInt8) : Prop where
  ne_nil : name ≠ []
  no_slash : 47 ∉ name
  no_nul : 0 ∉ name
  short : name.length < 0xFFFFFFFF

instance (name : List UInt8) : Decidable (IsName name) :=
  decidable_of_iff (name ≠ [] ∧ 47 ∉ name ∧ 0 ∉ name ∧ name.length < 0xFFFFFFFF)
    ⟨fun h => ⟨h.1, h.2.1, h.2.2.1, h.2.2.2⟩, fun h => ⟨h.ne_nil, h.no_slash, h.no_nul, h.short⟩⟩

/-- The components with a slash between them. -/
def pathString : List (List UInt8) → List UInt8
  | [] => []
  | [name] => name
  | name :: names => name ++ 47 :: pathString names

variable {c : UInt8} {rest s t : List UInt8} {path' added : List (List UInt8)}

theorem tolower_ne_zero (hc : c ≠ 0) : tolower c ≠ 0 := by
  unfold tolower
  split
  · next hupper =>
    obtain ⟨-, hle⟩ := of_decide_eq_true hupper
    intro hzero
    have hbound : c.toNat ≤ 90 := le_iff_toNat_le.mp hle
    have hsum := congrArg UInt8.toNat hzero
    simp at hsum
    omega
  · exact hc

theorem toNat_tolower_ne_zero (hc : c ≠ 0) : (tolower c).toNat ≠ 0 := fun hzero =>
  tolower_ne_zero hc (UInt8.toNat_inj.mp hzero)

theorem tolower_sub_ne_zero {a b : UInt8} (hne : tolower a ≠ tolower b) :
    ((tolower a).toNat : ℤ) - (tolower b).toNat ≠ 0 := by
  intro hsub
  exact hne (UInt8.toNat_inj.mp (by omega))

theorem strncasecmp_eq_zero_iff (ht : 0 ∉ t) :
    strncasecmp s (t ++ rest) t.length = 0 ↔ lower t <+: lower s := by
  induction t generalizing s with
  | nil =>
    refine iff_of_true ?_ nil_prefix
    cases s <;> rfl
  | cons b t ih =>
    have hb : b ≠ 0 := fun heq => ht (heq ▸ mem_cons_self)
    have ht' : 0 ∉ t := fun hmem => ht (mem_cons_of_mem b hmem)
    cases s with
    | nil =>
      have hlower := tolower_ne_zero hb
      have hpos : (tolower b).toNat ≠ 0 := fun hzero =>
        hlower (UInt8.toNat_inj.mp hzero)
      refine iff_of_false ?_ ?_
      · rw [cons_append, length_cons, strncasecmp]
        omega
      · simp [lower]
    | cons a s =>
      rw [cons_append, length_cons, strncasecmp]
      by_cases heq : tolower a = tolower b
      · rw [if_neg (by rw [heq]; omega), ih ht']
        simp [lower, heq]
      · have hne := tolower_sub_ne_zero heq
        rw [if_pos hne]
        refine iff_of_false hne ?_
        simp [lower, Ne.symm heq]

theorem strcasecmp_eq_zero_iff (hs : 0 ∉ s) (ht : 0 ∉ t) (hlength : s.length < 0xFFFFFFFF) :
    strcasecmp s t = 0 ↔ lower s = lower t := by
  unfold strcasecmp
  generalize 0xFFFFFFFF = num at hlength
  induction s generalizing t num with
  | nil =>
    cases num with
    | zero => exact absurd hlength (not_lt_zero _)
    | succ num =>
      cases t with
      | nil => exact iff_of_true rfl rfl
      | cons b t =>
        have hb : b ≠ 0 := fun heq => ht (heq ▸ mem_cons_self)
        have hpos := toNat_tolower_ne_zero hb
        refine iff_of_false ?_ ?_
        · rw [strncasecmp]
          omega
        · simp [lower]
  | cons a s ih =>
    have ha : a ≠ 0 := fun heq => hs (heq ▸ mem_cons_self)
    cases num with
    | zero => exact absurd hlength (not_lt_zero _)
    | succ num =>
      cases t with
      | nil =>
        have hpos := toNat_tolower_ne_zero ha
        refine iff_of_false ?_ ?_
        · rw [strncasecmp]
          omega
        · simp [lower]
      | cons b t =>
        rw [strncasecmp]
        by_cases heq : tolower a = tolower b
        · rw [if_neg (by rw [heq]; omega),
            ih (fun hmem => hs (mem_cons_of_mem a hmem))
              (fun hmem => ht (mem_cons_of_mem b hmem)) num
              (lt_of_succ_lt_succ hlength)]
          simp [lower, heq]
        · have hne := tolower_sub_ne_zero heq
          rw [if_pos hne]
          refine iff_of_false hne ?_
          simp [lower, heq]

/-! ## The tree map -/

def lowerPath (path : List (List UInt8)) : List (List UInt8) := path.map lower

theorem lowerPath_append (path path' : List (List UInt8)) :
    lowerPath (path ++ path') = lowerPath path ++ lowerPath path' :=
  map_append

/-- What the registry stands for: the paths of the key sets, and the keys of
each of them. -/
structure TreeMap where
  sets : List (List (List UInt8))
  keys : List (List UInt8) → List UInt8 → Option RegKey

def TreeMap.empty : TreeMap where
  sets := [[]]
  keys _ _ := none

def TreeMap.addSet (m : TreeMap) (path : List (List UInt8)) : TreeMap :=
  if path ∈ m.sets then m else { m with sets := m.sets ++ [path] }

/-- Add the sets along `names` below `path`. -/
def TreeMap.addSets (m : TreeMap) (path : List (List UInt8)) : List (List UInt8) → TreeMap
  | [] => m
  | name :: names => (m.addSet (path ++ [name])).addSets (path ++ [name]) names

def TreeMap.setKey (m : TreeMap) (path : List (List UInt8)) (name : List UInt8)
    (key : RegKey) : TreeMap :=
  { m with
    keys := fun path' name' =>
      if path' = path ∧ name' = name then some key else m.keys path' name' }

/-- If the name is the start of the name of a set below `path`, there is a set
with the name itself. -/
def NoClash (sets : List (List (List UInt8))) (path : List (List UInt8))
    (name : List UInt8) : Prop :=
  ∀ set ∈ sets, ∀ other ∈ set.getLast?, set = path ++ [other] →
    name <+: other → path ++ [name] ∈ sets
  deriving Decidable

variable {path : List (List UInt8)}

theorem TreeMap.mem_addSet {m : TreeMap} :
    path' ∈ (m.addSet path).sets ↔ path' ∈ m.sets ∨ path' = path := by
  unfold TreeMap.addSet
  split
  · next hmem =>
    constructor
    · exact .inl
    · rintro (h | rfl)
      · exact h
      · exact hmem
  · exact mem_append.trans (or_congr_right mem_singleton)

theorem TreeMap.keys_addSet (m : TreeMap) (path : List (List UInt8)) :
    (m.addSet path).keys = m.keys := by
  unfold TreeMap.addSet
  split <;> rfl

variable {name : List UInt8}

theorem NoClash.addSet {m : TreeMap} (h : NoClash m.sets path name)
    (hlength : added.length ≤ path.length) : NoClash (m.addSet added).sets path name := by
  intro set hset other hother heq hstart
  rcases TreeMap.mem_addSet.mp hset with hset | rfl
  · exact TreeMap.mem_addSet.mpr (.inl (h set hset other hother heq hstart))
  · rw [heq, length_append, length_singleton] at hlength
    omega

/-- No name along a path below `path` clashes. -/
def NoClashes (sets : List (List (List UInt8))) (path : List (List UInt8)) :
    List (List UInt8) → Prop
  | [] => True
  | name :: names =>
    NoClash sets path name ∧ NoClashes sets (path ++ [name]) names

instance decidableNoClashes (sets : List (List (List UInt8))) :
    (path names : List (List UInt8)) → Decidable (NoClashes sets path names)
  | _, [] => isTrue trivial
  | path, name :: names =>
    have := decidableNoClashes sets (path ++ [name]) names
    inferInstanceAs (Decidable (NoClash sets path name ∧ _))

variable {names : List (List UInt8)}

theorem NoClashes.addSet {m : TreeMap} (h : NoClashes m.sets path names)
    (hlength : added.length ≤ path.length) : NoClashes (m.addSet added).sets path names := by
  induction names generalizing path with
  | nil => trivial
  | cons name names ih =>
    refine ⟨h.1.addSet hlength, ih h.2 (hlength.trans ?_)⟩
    rw [length_append]
    exact le_add_right _ _

theorem NoClashes.last {sets : List (List (List UInt8))}
    (h : NoClashes sets path (names ++ [name])) : NoClash sets (path ++ names) name := by
  induction names generalizing path with
  | nil => rw [append_nil]; exact h.1
  | cons c names ih =>
    have hlast := ih h.2
    rwa [append_assoc] at hlast

theorem TreeMap.keys_addSets (m : TreeMap) (path names : List (List UInt8)) :
    (m.addSets path names).keys = m.keys := by
  induction names generalizing m path with
  | nil => rfl
  | cons name names ih =>
    rw [TreeMap.addSets, ih, TreeMap.keys_addSet]

/-! ## The tree in memory -/

/-- The tree of the key sets with the path of each of them.  No name is the start
of the name of an earlier child. -/
structure Tree (r : Registry) (m : TreeMap) (pathOf : ℕ → List (List UInt8)) : Prop where
  nonempty : 0 < r.size
  root : pathOf 0 = []
  child : ∀ n < r.size, ∀ c ∈ (r.set n).children,
    c < r.size ∧ pathOf c = pathOf n ++ [lower (r.set c).name]
  parent : ∀ c < r.size, c ≠ 0 → ∃ n < r.size, c ∈ (r.set n).children
  inj : ∀ a < r.size, ∀ b < r.size, pathOf a = pathOf b → a = b
  sets : ∀ path, path ∈ m.sets ↔ ∃ n < r.size, pathOf n = path
  order : ∀ n < r.size, (r.set n).children.Pairwise fun c d =>
    ¬ lower (r.set d).name <+: lower (r.set c).name
  names : ∀ n < r.size, ∀ k ∈ (r.set n).keys, IsName k.key
  keyNames : ∀ n < r.size, ((r.set n).keys.map fun k => lower k.key).Nodup
  find : ∀ n < r.size, ∀ name, IsName name →
    regKeySetFindKey r n name = m.keys (pathOf n) (lower name)
  absent : ∀ path ∉ m.sets, ∀ name, m.keys path name = none

/-! ## Path strings -/

theorem skip_name {β : Type*} {f : ℕ → List UInt8 → β} {length : ℕ}
    (hf : ∀ length c rest, c ≠ 47 → f length (c :: rest) = f (length + 1) rest)
    (hname : 47 ∉ name) : f length (name ++ rest) = f (length + name.length) rest := by
  induction name generalizing length with
  | nil => rfl
  | cons c name ih =>
    have hc : c ≠ 47 := fun heq => hname (heq ▸ mem_cons_self)
    rw [cons_append, hf _ _ _ hc, ih fun hmem => hname (mem_cons_of_mem c hmem), length_cons,
      Nat.add_assoc, Nat.add_comm 1]

theorem lookupLoop_skip {r : Registry} {n length : ℕ} {currName : List UInt8} (hname : 47 ∉ name) :
    lookupLoop r n currName length (name ++ rest) =
      lookupLoop r n currName (length + name.length) rest :=
  skip_name (fun _ _ _ hc => by rw [lookupLoop, if_neg hc]) hname

theorem pathString_ne_nil (hnames : ∀ c ∈ names ++ [name], IsName c) :
    pathString (names ++ [name]) ≠ [] := by
  cases names with
  | nil => exact (hnames name mem_cons_self).ne_nil
  | cons c names =>
    have hc := (hnames c mem_cons_self).ne_nil
    cases names with
    | nil | cons d names => exact append_ne_nil_of_left_ne_nil hc _

theorem pathString_cons (c : List UInt8) (names : List (List UInt8)) (name : List UInt8) :
    pathString (c :: names ++ [name]) = c ++ 47 :: pathString (names ++ [name]) := by
  cases names with
  | nil | cons d names => rfl

/-! ## Looking up -/

section Lookup

variable {r : Registry} {m : TreeMap} {pathOf : ℕ → List (List UInt8)} (h : Tree r m pathOf) {n : ℕ}

include h

theorem Tree.exists_parent {c : ℕ} (hc : c < r.size) (hpath : pathOf c = path ++ [name]) :
    ∃ p < r.size, c ∈ (r.set p).children ∧ pathOf p = path ∧ lower (r.set c).name = name := by
  have hne : c ≠ 0 := by
    rintro rfl
    rw [h.root] at hpath
    exact append_ne_nil_of_right_ne_nil _ (cons_ne_nil _ _) hpath.symm
  obtain ⟨p, hp, hchild⟩ := h.parent c hc hne
  have hpath' := (h.child p hp c hchild).2
  rw [hpath] at hpath'
  obtain ⟨hparent, hname⟩ := append_inj' hpath' rfl
  exact ⟨p, hp, hchild, hparent.symm, (List.cons.inj hname).1.symm⟩

theorem Tree.exists_child (hn : n < r.size) (hmem : pathOf n ++ [name] ∈ m.sets) :
    ∃ c ∈ (r.set n).children, pathOf c = pathOf n ++ [name] ∧ lower (r.set c).name = name := by
  obtain ⟨c, hc, hpath⟩ := (h.sets _).mp hmem
  obtain ⟨p, hp, hchild, hparent, hname⟩ := h.exists_parent hc hpath
  obtain rfl := h.inj p hp n hn hparent
  exact ⟨c, hchild, hpath, hname⟩

theorem Tree.mem_of_append (hmem : path ++ path' ∈ m.sets) : path ∈ m.sets := by
  induction path' using List.reverseRecOn with
  | nil => rwa [append_nil] at hmem
  | append_singleton path' name ih =>
    rw [← append_assoc] at hmem
    obtain ⟨c, hc, hpath⟩ := (h.sets _).mp hmem
    obtain ⟨p, hp, -, hparent, -⟩ := h.exists_parent hc hpath
    exact ih ((h.sets _).mpr ⟨p, hp, hparent⟩)

section

variable (hn : n < r.size)
include hn

theorem Tree.lookupOne_of_mem (hname : 0 ∉ name) (hmem : pathOf n ++ [lower name] ∈ m.sets)
    (rest : List UInt8) :
    ∃ c < r.size, pathOf c = pathOf n ++ [lower name] ∧
      regKeySetLookupOne r n (name ++ rest) name.length = some c := by
  obtain ⟨c, hchild, hpath, hlower⟩ := h.exists_child hn hmem
  refine ⟨c, (h.child n hn c hchild).1, hpath, ?_⟩
  obtain ⟨before, after, hsplit⟩ := append_of_mem hchild
  have horder := h.order n hn
  rw [hsplit] at horder
  refine find?_eq_some_iff_append.mpr ⟨?_, before, after, hsplit, ?_⟩
  · rw [decide_eq_true_iff, strncasecmp_eq_zero_iff hname, hlower]
  · intro d hd
    have hnot := (pairwise_append.mp horder).2.2 d hd c mem_cons_self
    rw [hlower] at hnot
    rw [Bool.not_eq_true', decide_eq_false_iff_not, strncasecmp_eq_zero_iff hname]
    exact hnot

theorem Tree.not_start (hclash : NoClash m.sets (pathOf n) name)
    (hnot : pathOf n ++ [name] ∉ m.sets) :
    ∀ d ∈ (r.set n).children, ¬ name <+: lower (r.set d).name := by
  intro d hd hstart
  obtain ⟨hdsize, hpath⟩ := h.child n hn d hd
  refine hnot (hclash (pathOf d) ((h.sets _).mpr ⟨d, hdsize, rfl⟩) _ ?_ hpath hstart)
  rw [hpath, getLast?_concat]
  rfl

theorem Tree.lookupOne_of_notMem (hname : 0 ∉ name)
    (hclash : NoClash m.sets (pathOf n) (lower name)) (hnot : pathOf n ++ [lower name] ∉ m.sets)
    (rest : List UInt8) : regKeySetLookupOne r n (name ++ rest) name.length = none := by
  refine find?_eq_none.mpr fun d hd hfound => ?_
  rw [decide_eq_true_iff, strncasecmp_eq_zero_iff hname] at hfound
  exact h.not_start hn hclash hnot d hd hfound

/-! ### Walks -/

theorem Tree.lookupLoop_pathString (hnames : ∀ c ∈ names ++ [name], IsName c)
    (hmem : pathOf n ++ lowerPath names ∈ m.sets) :
    ∃ p < r.size, pathOf p = pathOf n ++ lowerPath names ∧
      lookupLoop r n (pathString (names ++ [name])) 0
        (pathString (names ++ [name])) = some (p, name) := by
  induction names generalizing n with
  | nil =>
    refine ⟨n, hn, (append_nil _).symm, ?_⟩
    have hskip := @lookupLoop_skip [] name r n 0 name (hnames name mem_cons_self).no_slash
    rw [append_nil] at hskip
    exact hskip
  | cons c names ih =>
    obtain ⟨hc, hrest⟩ := forall_mem_cons.mp hnames
    have hsplit : pathOf n ++ lowerPath (c :: names) =
        (pathOf n ++ [lower c]) ++ lowerPath names := by
      rw [append_assoc]
      rfl
    rw [hsplit] at hmem ⊢
    obtain ⟨p, hp, hpath, hfound⟩ := h.lookupOne_of_mem hn hc.no_nul
      (h.mem_of_append hmem) (47 :: pathString (names ++ [name]))
    rw [← hpath] at hmem ⊢
    obtain ⟨q, hq, hqpath, hloop⟩ := ih hp hrest hmem
    refine ⟨q, hq, hqpath, ?_⟩
    rw [pathString_cons, lookupLoop_skip hc.no_slash, lookupLoop, if_pos rfl, Nat.zero_add, hfound,
      Option.bind_some, if_neg (pathString_ne_nil hrest), hloop]

end

theorem Tree.regKeySetLookup_eq (hnames : ∀ c ∈ names ++ [name], IsName c)
    (hmem : lowerPath names ∈ m.sets) :
    ∃ p < r.size, pathOf p = lowerPath names ∧
      regKeySetLookup r none (47 :: pathString (names ++ [name])) = some (p, name) := by
  have hroot : pathOf 0 ++ lowerPath names = lowerPath names := by rw [h.root, nil_append]
  obtain ⟨p, hp, hpath, hloop⟩ := h.lookupLoop_pathString h.nonempty hnames (hroot.symm ▸ hmem)
  refine ⟨p, hp, hpath.trans hroot, ?_⟩
  rw [regKeySetLookup]
  rw [bind_some, if_neg (pathString_ne_nil hnames), hloop]

theorem Tree.regKeySetGet_eq (hnames : ∀ c ∈ path, IsName c) (hmem : lowerPath path ∈ m.sets) :
    ∃ n < r.size, pathOf n = lowerPath path ∧
      regKeySetGet r (47 :: pathString path) = some (some n) := by
  rcases eq_nil_or_concat' path with rfl | ⟨names, name, rfl⟩
  · exact ⟨0, h.nonempty, h.root, rfl⟩
  · have hname := hnames name (mem_append_right _ mem_cons_self)
    rw [lowerPath_append] at hmem ⊢
    obtain ⟨p, hp, hpath, hlookup⟩ := h.regKeySetLookup_eq hnames (h.mem_of_append hmem)
    rw [← hpath] at hmem ⊢
    obtain ⟨n, hn, hnpath, hfound⟩ := h.lookupOne_of_mem hp hname.no_nul hmem []
    refine ⟨n, hn, hnpath, ?_⟩
    rw [append_nil] at hfound
    have hne : (47 :: pathString (names ++ [name])) ≠ [47] := fun heq =>
      pathString_ne_nil hnames (List.cons.inj heq).2
    rw [regKeySetGet, if_neg hne, hlookup, map_some, hfound]

end Lookup

end Whitix.RegServer
