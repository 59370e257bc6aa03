import Mathlib.Data.List.Nodup
import Whitix.User.System.Registry.Lookup

/-!
# The registry is a tree map

In every run in which no new name is the start of the name of a sibling, and no
key is created twice, the registry is the tree map of what has been created.
`RegKeySetLookupOne` compares only as many bytes as the name has that is looked
up, and `RegKeyCreate` does not look for a key with the same name.
-/

namespace Whitix.RegServer

open Support Function Option Prod Nat
open List hiding set

/-! ## New sets -/

variable {name : List UInt8} {r : Registry} {m : TreeMap} {pathOf : ℕ → List (List UInt8)} {n : ℕ}

section Create

variable (h : Tree r m pathOf)

def newSet (r : Registry) (n : ℕ) (name : List UInt8) : Registry :=
  (regKeySetCreateOne r n name name.length).2

theorem newSet_new (hn : n < r.size) : (newSet r n name).set r.size = ⟨name, [], 0, [], 0⟩ := by
  have hne : r.size ≠ n := hn.ne'
  unfold newSet regKeySetCreateOne regKeySetAddChild
  dsimp only
  rw [update_of_ne hne, update_self, take_length]

section Old

variable (n) (name) {k : ℕ} (hk : k < r.size)

include hk

theorem newSet_old : (newSet r n name).set k = if k = n then
    { r.set n with
      children := (r.set n).children ++ [r.size]
      numChildren := (r.set n).numChildren + 1 } else r.set k := by
  unfold newSet regKeySetCreateOne regKeySetAddChild
  dsimp only
  by_cases heq : k = n
  · rw [heq, update_self, update_of_ne (heq ▸ hk.ne), if_pos rfl]
  · rw [update_of_ne heq, update_of_ne hk.ne, if_neg heq]

theorem newSet_kept : ((newSet r n name).set k).name = (r.set k).name ∧
    ((newSet r n name).set k).keys = (r.set k).keys := by
  rw [newSet_old name n hk]
  split
  · next heq =>
    subst heq
    exact ⟨rfl, rfl⟩
  · exact ⟨rfl, rfl⟩

theorem mem_newSet_children {c : ℕ} :
    c ∈ ((newSet r n name).set k).children ↔ c ∈ (r.set k).children ∨ k = n ∧ c = r.size := by
  rw [newSet_old name n hk]
  split
  · next heq => simp [heq]
  · next hne => simp [hne]

end Old

theorem regKeySetFindKey_congr {r r' : Registry} {k : ℕ}
    (hkeys : (r'.set k).keys = (r.set k).keys) :
    regKeySetFindKey r' k name = regKeySetFindKey r k name := by
  unfold regKeySetFindKey
  rw [hkeys]

include h

theorem Tree.pathOf_mem (hn : n < r.size) : pathOf n ∈ m.sets :=
  (h.sets _).mpr ⟨n, hn, rfl⟩

theorem Tree.newSet (hn : n < r.size) (hclash : NoClash m.sets (pathOf n) (lower name))
    (hnot : pathOf n ++ [lower name] ∉ m.sets) :
    Tree (newSet r n name) (m.addSet (pathOf n ++ [lower name]))
      (update pathOf r.size (pathOf n ++ [lower name])) := by
  have hold : ∀ k < r.size, update pathOf r.size
      (pathOf n ++ [lower name]) k = pathOf k := fun k hk =>
    update_of_ne hk.ne _ _
  have hsize : (RegServer.newSet r n name).size = r.size + 1 := rfl
  have hcases : ∀ k < (RegServer.newSet r n name).size, k < r.size ∨ k = r.size :=
    fun k hk => Nat.lt_succ_iff_lt_or_eq.mp hk
  have hnew := @newSet_new name r n hn
  exact {
    nonempty := Nat.succ_pos _
    root := (hold 0 h.nonempty).trans h.root
    child k hk c hc := by
      rcases hcases k hk with hk | rfl
      · rcases (mem_newSet_children name n hk).mp hc with hc | ⟨rfl, rfl⟩
        · obtain ⟨hcsize, hpath⟩ := h.child k hk c hc
          refine ⟨hcsize.trans (lt_succ_self _), ?_⟩
          rw [hold c hcsize, hold k hk, (newSet_kept name n hcsize).1, hpath]
        · refine ⟨lt_succ_self _, ?_⟩
          rw [update_self, hold k hn, hnew]
      · rw [hnew] at hc
        cases hc
    parent c hc hne := by
      rcases hcases c hc with hc | rfl
      · obtain ⟨k, hk, hchild⟩ := h.parent c hc hne
        exact ⟨k, hk.trans (lt_succ_self _), (mem_newSet_children name n hk).mpr (.inl hchild)⟩
      · exact ⟨n, hn.trans (lt_succ_self _), (mem_newSet_children name n hn).mpr (.inr ⟨rfl, rfl⟩)⟩
    inj := by
      have hother : ∀ k < r.size, pathOf k ≠ pathOf n ++ [lower name] :=
        fun k hk heq => hnot (heq ▸ h.pathOf_mem hk)
      intro a ha b hb heq
      rcases hcases a ha with ha | rfl
      · rcases hcases b hb with hb | rfl
        · rw [hold a ha, hold b hb] at heq
          exact h.inj a ha b hb heq
        · rw [hold a ha, update_self] at heq
          exact absurd heq (hother a ha)
      · rcases hcases b hb with hb | rfl
        · rw [hold b hb, update_self] at heq
          exact absurd heq.symm (hother b hb)
        · rfl
    sets path := by
      rw [TreeMap.mem_addSet, h.sets]
      constructor
      · rintro (⟨k, hk, hpath⟩ | rfl)
        · exact ⟨k, hk.trans (lt_succ_self _), (hold k hk).trans hpath⟩
        · exact ⟨r.size, lt_succ_self _, update_self _ _ _⟩
      · rintro ⟨k, hk, hpath⟩
        rcases hcases k hk with hk | rfl
        · exact .inl ⟨k, hk, (hold k hk).symm.trans hpath⟩
        · exact .inr (hpath.symm.trans (update_self _ _ _))
    order := by
      have hnames : ∀ k < r.size, ∀ c ∈ (r.set k).children,
          ((RegServer.newSet r n name).set c).name = (r.set c).name :=
        fun k hk c hc => (newSet_kept name n (h.child k hk c hc).1).1
      have hpairs : ∀ k < r.size, (r.set k).children.Pairwise fun c d =>
          ¬ lower ((RegServer.newSet r n name).set d).name <+:
            lower ((RegServer.newSet r n name).set c).name := by
        intro k hk
        refine (h.order k hk).imp_of_mem fun hc hd hnot => ?_
        rwa [hnames k hk _ hc, hnames k hk _ hd]
      intro k hk
      rcases hcases k hk with hk | rfl
      · rw [newSet_old name n hk]
        split
        · refine pairwise_append.mpr ⟨hpairs n hn, pairwise_singleton _ _, fun c hc d hd => ?_⟩
          obtain rfl := mem_singleton.mp hd
          rw [hnew, hnames n hn c hc]
          exact h.not_start hn hclash hnot c hc
        · exact hpairs k hk
      · rw [hnew]
        exact List.Pairwise.nil
    names k hk key hkey := by
      rcases hcases k hk with hk | rfl
      · rw [(newSet_kept name n hk).2] at hkey
        exact h.names k hk key hkey
      · rw [hnew] at hkey
        cases hkey
    keyNames k hk := by
      rcases hcases k hk with hk | rfl
      · rw [(newSet_kept name n hk).2]
        exact h.keyNames k hk
      · rw [hnew]
        exact nodup_nil
    find k hk key hkey := by
      rw [TreeMap.keys_addSet]
      rcases hcases k hk with hk | rfl
      · rw [regKeySetFindKey_congr (newSet_kept name n hk).2, hold k hk]
        exact h.find k hk key hkey
      · rw [update_self, h.absent _ hnot, regKeySetFindKey, hnew]
        rfl
    absent path hpath key := by
      rw [TreeMap.keys_addSet]
      exact h.absent path (fun hmem => hpath (TreeMap.mem_addSet.mpr (.inl hmem))) key }

theorem Tree.nextSet (hn : n < r.size) (hname : 0 ∉ name)
    (hclash : NoClash m.sets (pathOf n) (lower name)) (rest : List UInt8) :
    ∃ c r' pathOf', nextSet r n (name ++ rest) name.length = (c, r') ∧
      Tree r' (m.addSet (pathOf n ++ [lower name])) pathOf' ∧ c < r'.size ∧
      pathOf' c = pathOf n ++ [lower name] := by
  unfold RegServer.nextSet
  by_cases hmem : pathOf n ++ [lower name] ∈ m.sets
  · obtain ⟨c, hc, hpath, hfound⟩ := h.lookupOne_of_mem hn hname hmem rest
    have hsame : m.addSet (pathOf n ++ [lower name]) = m := if_pos hmem
    rw [hfound, hsame]
    exact ⟨c, r, pathOf, rfl, h, hc, hpath⟩
  · have hcreate : regKeySetCreateOne r n (name ++ rest) name.length =
        (r.size, RegServer.newSet r n name) := by
      unfold RegServer.newSet regKeySetCreateOne
      rw [take_append_of_le_length le_rfl]
    rw [h.lookupOne_of_notMem hn hname hclash hmem rest]
    rw [hcreate]
    exact ⟨r.size, _, _, rfl, h.newSet hn hclash hmem, lt_succ_self _, update_self _ _ _⟩

end Create

theorem createLoop_skip {length : ℕ} {currName rest : List UInt8} (hname : 47 ∉ name) :
    createLoop r n currName length (name ++ rest) =
      createLoop r n currName (length + name.length) rest :=
  skip_name (fun _ _ _ hc => by rw [createLoop, if_neg hc]) hname

theorem Tree.createLoop_pathString (h : Tree r m pathOf) (hn : n < r.size)
    {names : List (List UInt8)} (hnames : ∀ c ∈ names ++ [name], IsName c)
    (hclash : NoClashes m.sets (pathOf n) (lowerPath names)) :
    ∃ p r' pathOf', createLoop r n (pathString (names ++ [name])) 0
        (pathString (names ++ [name])) = (r', p, name) ∧
      Tree r' (m.addSets (pathOf n) (lowerPath names)) pathOf' ∧ p < r'.size ∧
      pathOf' p = pathOf n ++ lowerPath names := by
  induction names generalizing r m pathOf n with
  | nil =>
    refine ⟨n, r, pathOf, ?_, h, hn, (append_nil _).symm⟩
    have hskip := @createLoop_skip name r n 0 name [] (hnames name mem_cons_self).no_slash
    rw [append_nil] at hskip
    exact hskip
  | cons c names ih =>
    obtain ⟨hc, hrest⟩ := forall_mem_cons.mp hnames
    obtain ⟨hfirst, hothers⟩ := hclash
    obtain ⟨p, r₁, pathOf₁, hnext, htree, hp, hpath⟩ := h.nextSet hn hc.no_nul
      hfirst (47 :: pathString (names ++ [name]))
    have hothers₁ : NoClashes (m.addSet (pathOf n ++ [lower c])).sets
        (pathOf₁ p) (lowerPath names) := by
      rw [hpath]
      exact hothers.addSet le_rfl
    obtain ⟨q, r', pathOf', hloop, htree', hq, hqpath⟩ :=
      ih htree hp hrest hothers₁
    rw [hpath] at htree' hqpath
    refine ⟨q, r', pathOf', ?_, htree', hq, ?_⟩
    · rw [pathString_cons, createLoop_skip hc.no_slash, createLoop, if_pos rfl, Nat.zero_add]
      rw [hnext, if_neg (pathString_ne_nil hrest), hloop]
    · rw [hqpath, append_assoc]
      rfl

/-! ## New keys -/

section AddKey

variable (h : Tree r m pathOf) (hn : n < r.size) {key : RegKey}

theorem addKey_other {k : ℕ} (hne : k ≠ n) : (regKeySetAddKey r n key).set k = r.set k :=
  update_of_ne hne _ _

theorem addKey_self :
    (regKeySetAddKey r n key).set n = { r.set n with
      keys := (r.set n).keys ++ [key]
      numKeys := (r.set n).numKeys + 1 } :=
  update_self _ _ _

theorem addKey_name (k : ℕ) :
    ((regKeySetAddKey r n key).set k).name = (r.set k).name ∧
      ((regKeySetAddKey r n key).set k).children = (r.set k).children := by
  by_cases hk : k = n
  · rw [hk, addKey_self]
    exact ⟨rfl, rfl⟩
  · rw [addKey_other hk]
    exact ⟨rfl, rfl⟩

include h hn

section

variable (hname : IsName key.key) (hnew : m.keys (pathOf n) (lower key.key) = none)
include hname hnew

theorem Tree.key_ne : ∀ k ∈ (r.set n).keys, lower k.key ≠ lower key.key := by
  intro k hk heq
  rw [← h.find n hn key.key hname] at hnew
  refine find?_eq_none.mp hnew k hk (decide_eq_true ?_)
  have hkey := h.names n hn k hk
  exact (strcasecmp_eq_zero_iff hkey.no_nul hname.no_nul hkey.short).mpr heq

theorem Tree.addKey :
    Tree (regKeySetAddKey r n key) (m.setKey (pathOf n) (lower key.key) key) pathOf := { h with
  child k hk c hc := by
    rw [(addKey_name k).2] at hc
    rw [(addKey_name c).1]
    exact h.child k hk c hc
  parent c hc hne := by
    obtain ⟨k, hk, hchild⟩ := h.parent c hc hne
    exact ⟨k, hk, (addKey_name k).2.symm ▸ hchild⟩
  order k hk := by
    rw [(addKey_name k).2]
    refine (h.order k hk).imp fun {c d} hnot => ?_
    rwa [(addKey_name c).1, (addKey_name d).1]
  names k hk k' hk' := by
    by_cases hkn : k = n
    · rw [hkn, addKey_self] at hk'
      rcases mem_append.mp hk' with hk' | hk'
      · exact h.names n hn k' hk'
      · exact mem_singleton.mp hk' ▸ hname
    · rw [addKey_other hkn] at hk'
      exact h.names k hk k' hk'
  keyNames k hk := by
    by_cases hkn : k = n
    · rw [hkn, addKey_self]
      rw [map_append]
      refine nodup_append.mpr ⟨h.keyNames n hn, nodup_singleton _, ?_⟩
      intro a ha b hb
      obtain ⟨k', hk', rfl⟩ := mem_map.mp ha
      obtain rfl := mem_singleton.mp hb
      exact h.key_ne hn hname hnew k' hk'
    · rw [addKey_other hkn]
      exact h.keyNames k hk
  find k hk name hname' := by
    unfold TreeMap.setKey
    dsimp only
    by_cases hkn : k = n
    · subst hkn
      unfold regKeySetFindKey
      rw [addKey_self]
      have hold := h.find k hk name hname'
      unfold regKeySetFindKey at hold
      rw [find?_append, hold]
      by_cases heq : lower name = lower key.key
      · have hmatch : strcasecmp key.key name = 0 :=
          (strcasecmp_eq_zero_iff hname.no_nul hname'.no_nul hname.short).mpr heq.symm
        rw [if_pos ⟨rfl, heq⟩, heq, hnew, find?_singleton, decide_eq_true hmatch]
        rfl
      · have hmatch : strcasecmp key.key name ≠ 0 := fun hzero => heq
          ((strcasecmp_eq_zero_iff hname.no_nul hname'.no_nul hname.short).mp hzero).symm
        rw [if_neg fun hboth => heq hboth.2, find?_singleton, decide_eq_false hmatch]
        exact or_none
    · have hpath : pathOf k ≠ pathOf n := fun heq => hkn (h.inj k hk n hn heq)
      have hkeys : ((regKeySetAddKey r n key).set k).keys = (r.set k).keys := by
        rw [addKey_other hkn]
      rw [if_neg fun hboth => hpath hboth.1, regKeySetFindKey_congr hkeys]
      exact h.find k hk name hname'
  absent path hpath name := by
    have hne : path ≠ pathOf n := fun heq => hpath (heq ▸ h.pathOf_mem hn)
    exact (if_neg fun hboth => hne hboth.1).trans (h.absent path hpath name) }

end

end AddKey

/-! ## Runs -/

/-- The registry, and the tree map of what has been created. -/
structure System where
  registry : Registry
  map : TreeMap

inductive Op
  /-- `RegKeySetCreate` of an absolute path. -/
  | keySetCreate (path : List (List UInt8))
  /-- `RegKeyCreate` in the set that `RegKeySetGet` returns. -/
  | keyCreate (set path : List (List UInt8)) (name value : List UInt8)
      (type description : Option (List UInt8))

section

variable (atoi : List UInt8 → ℤ) (s : System)

/-- Paths are well formed, and the parent or the set exists. -/
def Allowed : Op → Prop
  | .keySetCreate path =>
    path ≠ [] ∧ (∀ c ∈ path, IsName c) ∧ lowerPath path.dropLast ∈ s.map.sets
  | .keyCreate set path name _ _ _ =>
    (∀ c ∈ set, IsName c) ∧ (∀ c ∈ path ++ [name], IsName c) ∧ lowerPath set ∈ s.map.sets

instance (s : System) : (op : Op) → Decidable (Allowed s op)
  | .keySetCreate _ | .keyCreate .. => inferInstanceAs (Decidable (_ ∧ _ ∧ _))

/-- What an allowed call does to the registry; `none` if it does not return. -/
def execute (r : Registry) : Op → Option Registry
  | .keySetCreate path => regKeySetCreate r none (47 :: pathString path)
  | .keyCreate set path name value type description =>
    (regKeySetGet r (47 :: pathString set)).bind fun keySet =>
      keySet.bind fun keySet =>
        regKeyCreate atoi r keySet (pathString (path ++ [name])) value type description

def specify (m : TreeMap) : Op → TreeMap
  | .keySetCreate path => m.addSet (lowerPath path)
  | .keyCreate set path name value type description =>
    (m.addSets (lowerPath set) (lowerPath path)).setKey (lowerPath (set ++ path)) (lower name)
      (newKey atoi name value type description)

def step (op : Op) : Option System :=
  if Allowed s op then
    (execute atoi s.registry op).map fun r => ⟨r, specify atoi s.map op⟩
  else none

def start : System := ⟨regKeySetCreateRoot, TreeMap.empty⟩

/-- No name clashes with the name of a sibling, and the key is new. -/
def Unambiguous : Op → Prop
  | .keySetCreate path => NoClashes s.map.sets [] (lowerPath path)
  | .keyCreate set path name _ _ _ =>
    NoClashes s.map.sets (lowerPath set) (lowerPath path) ∧
      s.map.keys (lowerPath (set ++ path)) (lower name) = none

end

instance (s : System) : (op : Op) → Decidable (Unambiguous s op)
  | .keySetCreate _ => inferInstanceAs (Decidable (NoClashes _ _ _))
  | .keyCreate _ _ _ _ _ _ => inferInstanceAs (Decidable (_ ∧ _ = none))

/-- The key set is reached from the root along the path. -/
inductive At (r : Registry) : List (List UInt8) → ℕ → Prop
  | root : At r [] 0
  | child {path : List (List UInt8)} {set c : ℕ} :
      At r path set → c ∈ (r.set set).children → At r (path ++ [lower (r.set c).name]) c

/-- The registry is the tree map: every path of the map leads to one set, the one
that `RegKeySetGet` returns, different paths to different sets, children and keys
have different names, and `RegKeySetFindKey` finds the keys of the map. -/
structure IsTreeMap (r : Registry) (m : TreeMap) : Prop where
  get : ∀ path, (∀ c ∈ path, IsName c) → lowerPath path ∈ m.sets →
    ∃ n, regKeySetGet r (47 :: pathString path) = some (some n) ∧ At r (lowerPath path) n
  sets : ∀ path n, At r path n → path ∈ m.sets
  unique : ∀ path n n', At r path n → At r path n' → n = n'
  different : ∀ path path' n, At r path n → At r path' n → path = path'
  children : ∀ path n, At r path n → ((r.set n).children.map fun c => lower (r.set c).name).Nodup
  keys : ∀ path n, At r path n → ((r.set n).keys.map fun k => lower k.key).Nodup
  find : ∀ path n name, At r path n → IsName name →
    regKeySetFindKey r n name = m.keys path (lower name)

variable {path : List (List UInt8)}

section IsTreeMap

variable (h : Tree r m pathOf)

include h

theorem Tree.of_at (hat : At r path n) : n < r.size ∧ pathOf n = path := by
  induction hat with
  | root => exact ⟨h.nonempty, h.root⟩
  | child _ hchild ih =>
    obtain ⟨hset, hpath⟩ := ih
    obtain ⟨hc, hcpath⟩ := h.child _ hset _ hchild
    exact ⟨hc, by rw [hcpath, hpath]⟩

theorem Tree.at_pathOf (hn : n < r.size) (hpath : pathOf n = path) : At r path n := by
  induction path using reverseRecOn generalizing n with
  | nil =>
    obtain rfl := h.inj n hn 0 h.nonempty (hpath.trans h.root.symm)
    exact At.root
  | append_singleton path name ih =>
    obtain ⟨p, hp, hchild, hparent, rfl⟩ := h.exists_parent hn hpath
    exact At.child (ih hp hparent) hchild

theorem Tree.isTreeMap : IsTreeMap r m where
  get path hnames hmem := by
    obtain ⟨n, hn, hpath, hget⟩ := h.regKeySetGet_eq hnames hmem
    exact ⟨n, hget, h.at_pathOf hn hpath⟩
  sets path n hat := by
    obtain ⟨hn, hpath⟩ := h.of_at hat
    exact hpath ▸ h.pathOf_mem hn
  unique path n n' hat hat' := by
    obtain ⟨hn, hpath⟩ := h.of_at hat
    obtain ⟨hn', hpath'⟩ := h.of_at hat'
    exact h.inj n hn n' hn' (hpath.trans hpath'.symm)
  different path path' n hat hat' :=
    (h.of_at hat).2.symm.trans (h.of_at hat').2
  children path n hat := by
    refine pairwise_map.mpr ((h.order n (h.of_at hat).1).imp ?_)
    exact fun hnot heq => hnot (heq ▸ prefix_refl _)
  keys path n hat := h.keyNames n (h.of_at hat).1
  find path n name hat hname := by
    obtain ⟨hn, hpath⟩ := h.of_at hat
    exact hpath ▸ h.find n hn name hname

end IsTreeMap

section Steps

variable (atoi : List UInt8 → ℤ) (h : Tree r m pathOf)

theorem regKeySetCreate_eq (r : Registry) (keySet : Option ℕ) (path : List UInt8) :
    regKeySetCreate r keySet path = (regKeySetLookup r keySet path).map fun parent =>
      (nextSet r parent.1 parent.2 parent.2.length).2 := by
  unfold regKeySetCreate nextSet
  congr 1
  funext parent
  split <;> rfl

theorem tree_start : Tree regKeySetCreateRoot TreeMap.empty fun _ => [] where
  nonempty := Nat.one_pos
  root := rfl
  child _ _ _ hc := absurd hc not_mem_nil
  parent c hc hne := absurd (Nat.lt_one_iff.mp hc) hne
  inj a ha b hb _ := (Nat.lt_one_iff.mp ha).trans (Nat.lt_one_iff.mp hb).symm
  sets path := by
    constructor
    · intro hmem
      exact ⟨0, Nat.one_pos, (mem_singleton.mp hmem).symm⟩
    · rintro ⟨n, -, rfl⟩
      exact mem_cons_self
  order _ _ := List.Pairwise.nil
  names _ _ _ hk := absurd hk not_mem_nil
  keyNames _ _ := nodup_nil
  find _ _ _ _ := rfl
  absent _ _ _ := rfl

include h

theorem Tree.keySetCreate (hne : path ≠ []) (hnames : ∀ c ∈ path, IsName c)
    (hparent : lowerPath path.dropLast ∈ m.sets) (hclash : NoClashes m.sets [] (lowerPath path)) :
    ∃ r' pathOf', regKeySetCreate r none (47 :: pathString path) = some r' ∧
      Tree r' (m.addSet (lowerPath path)) pathOf' := by
  obtain ⟨names, name, rfl⟩ := (eq_nil_or_concat' path).resolve_left hne
  have hname := hnames name (mem_append_right _ mem_cons_self)
  rw [dropLast_concat] at hparent
  obtain ⟨p, hp, hpath, hlookup⟩ := h.regKeySetLookup_eq hnames hparent
  rw [lowerPath_append] at hclash ⊢
  have hlast : NoClash m.sets (pathOf p) (lower name) := by
    rw [hpath]
    exact NoClashes.last hclash
  have hsplit : lowerPath names ++ lowerPath [name] = pathOf p ++ [lower name] := by
    rw [hpath]
    rfl
  rw [hsplit]
  obtain ⟨c, r', pathOf', hnext, htree, -⟩ := h.nextSet hp hname.no_nul hlast []
  refine ⟨r', pathOf', ?_, htree⟩
  rw [append_nil] at hnext
  rw [regKeySetCreate_eq, hlookup, map_some, hnext]

theorem Tree.keyCreate {set : List (List UInt8)} (hset : ∀ c ∈ set, IsName c)
    (hnames : ∀ c ∈ path ++ [name], IsName c) (hmem : lowerPath set ∈ m.sets)
    (hclash : NoClashes m.sets (lowerPath set) (lowerPath path))
    (hnew : m.keys (lowerPath (set ++ path)) (lower name) = none) (value : List UInt8)
    (type description : Option (List UInt8)) :
    ∃ r' pathOf', execute atoi r (.keyCreate set path name value type description) = some r' ∧
      Tree r' (specify atoi m (.keyCreate set path name value type description)) pathOf' := by
  obtain ⟨n, hn, hpath, hget⟩ := h.regKeySetGet_eq hset hmem
  rw [← hpath] at hclash
  obtain ⟨p, r₁, pathOf₁, hloop, htree, hp, hppath⟩ :=
    h.createLoop_pathString hn hnames hclash
  have hname := hnames name (mem_append_right _ mem_cons_self)
  have hp' : pathOf₁ p = lowerPath (set ++ path) := by rw [hppath, hpath, lowerPath_append]
  have hnew' : (m.addSets (pathOf n) (lowerPath path)).keys (pathOf₁ p)
      (lower (newKey atoi name value type description).key) = none := by
    rw [TreeMap.keys_addSets, hp']
    exact hnew
  have hadd := htree.addKey hp hname hnew'
  rw [hp', hpath] at hadd
  refine ⟨_, pathOf₁, ?_, hadd⟩
  rw [execute, hget, bind_some, bind_some, regKeyCreate, if_neg (pathString_ne_nil hnames), hloop]

theorem Tree.execute {op : Op} (hallowed : Allowed ⟨r, m⟩ op) (hclear : Unambiguous ⟨r, m⟩ op) :
    ∃ r' pathOf', execute atoi r op = some r' ∧ Tree r' (specify atoi m op) pathOf' := by
  cases op with
  | keySetCreate path =>
    obtain ⟨hne, hnames, hparent⟩ := hallowed
    exact h.keySetCreate hne hnames hparent hclear
  | keyCreate set path name value type description =>
    obtain ⟨hset, hnames, hmem⟩ := hallowed
    exact h.keyCreate atoi hset hnames hmem hclear.1 hclear.2 value type description

end Steps

def IsTree (s : System) : Prop := ∃ pathOf, Tree s.registry s.map pathOf

/-- In every run without ambiguous calls the registry is the tree map of what has
been created, and every allowed call that is not ambiguous returns. -/
theorem registry_isTreeMap (atoi : List UInt8 → ℤ) {s : System}
    (hreach : Reach (step atoi) Unambiguous start s) :
    IsTreeMap s.registry s.map ∧ ∀ op, Allowed s op → Unambiguous s op → step atoi s op ≠ none := by
  have hstep : ∀ s op s', IsTree s → Unambiguous s op → step atoi s op = some s' → IsTree s' := by
    rintro s op s' ⟨pathOf, htree⟩ hclear hstep
    obtain ⟨hallowed, hmap⟩ := ite_none_right_eq_some.mp hstep
    obtain ⟨r', pathOf', hexecute, htree'⟩ := htree.execute atoi hallowed hclear
    rw [hexecute] at hmap
    cases hmap
    exact ⟨pathOf', htree'⟩
  obtain ⟨pathOf, htree⟩ := hreach.invariant ⟨_, tree_start⟩ hstep
  refine ⟨htree.isTreeMap, fun op hallowed hclear hnone => ?_⟩
  obtain ⟨r', -, hexecute, -⟩ := htree.execute atoi hallowed hclear
  rw [step, if_pos hallowed, hexecute] at hnone
  cases hnone

/-- The sets `/a` and `/aB`, and the key `k` of `/Ab`. -/
theorem registry_isTreeMap_sets :
    ∃ s, Reach (step fun _ => 0) Unambiguous start s ∧ s.map.sets = [[], [[97]], [[97, 98]]] ∧
      (regKeySetFindKey s.registry 2 [75]).map RegKey.value = some (.str [49]) ∧
      IsTreeMap s.registry s.map := by
  obtain ⟨s, hreach, hsets, hkey⟩ := exists_reach (step fun _ => 0) Unambiguous start
    [.keySetCreate [[97]], .keySetCreate [[97, 66]], .keyCreate [[65, 98]] [] [107] [49] none none]
    (fun s => s.map.sets = [[], [[97]], [[97, 98]]] ∧
      (regKeySetFindKey s.registry 2 [75]).map RegKey.value = some (.str [49])) (by decide)
  exact ⟨s, hreach, hsets, hkey, (registry_isTreeMap _ hreach).1⟩

/-- After `/ab` has been created, `/a` is not created, and `RegKeySetGet` of `/a`
returns `/ab`; and when a key is created twice, the first value is found. -/
theorem registry_not_treeMap :
    (∃ s, Reach (step fun _ => 0) (fun _ _ => True) start s ∧
      s.map.sets = [[], [[97, 98]], [[97]]] ∧
      regKeySetGet s.registry [47, 97] = some (some 1) ∧
      (s.registry.set 1).name = [97, 98] ∧
      ¬ IsTreeMap s.registry s.map) ∧
    ∃ s, Reach (step fun _ => 0) (fun _ _ => True) start s ∧
      (s.map.keys [] [107]).map RegKey.value = some (.str [50]) ∧
      (regKeySetFindKey s.registry 0 [107]).map RegKey.value = some (.str [49]) ∧
      ¬ IsTreeMap s.registry s.map := by
  constructor
  · obtain ⟨s, hs, hsets, hget, hname, hchildren⟩ := exists_reach (step fun _ => 0)
      (fun _ _ => True) start [.keySetCreate [[97, 98]], .keySetCreate [[97]]]
      (fun s => s.map.sets = [[], [[97, 98]], [[97]]] ∧
        regKeySetGet s.registry [47, 97] = some (some 1) ∧
        (s.registry.set 1).name = [97, 98] ∧ (s.registry.set 0).children = [1]) (by decide)
    refine ⟨s, hs, hsets, hget, hname, fun hmap => ?_⟩
    obtain ⟨n, hn, hat⟩ := hmap.get [[97]] (by decide) (by rw [hsets]; decide)
    have hone : n = 1 := some.inj (some.inj (hn.symm.trans hget))
    have hat' : At s.registry ([] ++ [lower (s.registry.set 1).name]) 1 :=
      At.child At.root (by rw [hchildren]; exact mem_cons_self)
    rw [hone] at hat
    rw [hname] at hat'
    cases hmap.different _ _ 1 hat hat'
  · obtain ⟨s, hs, hkey, hfound⟩ := exists_reach (step fun _ => 0) (fun _ _ => True) start
      [.keyCreate [] [] [107] [49] none none, .keyCreate [] [] [107] [50] none none]
      (fun s => (s.map.keys [] [107]).map RegKey.value = some (.str [50]) ∧
        (regKeySetFindKey s.registry 0 [107]).map RegKey.value = some (.str [49])) (by decide)
    refine ⟨s, hs, hkey, hfound, fun hmap => ?_⟩
    have hfind := hmap.find [] 0 [107] At.root (by decide)
    have hlower : lower [107] = [107] := by decide
    rw [hfind, hlower, hkey] at hfound
    cases hfound

end Whitix.RegServer
