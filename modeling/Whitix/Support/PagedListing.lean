import Mathlib.Data.List.Basic

/-!
# Listings in pieces

A reader goes through a sequence of records from a position that is kept between
calls.  Each call fills a buffer, and stops at the first record that does not fit;
the position from which the next call goes on is then up to the reader.  This module
contains what a call returns, and what a sequence of calls returns together.
-/

namespace Whitix.Support

open List Prod

variable {σ ρ : Type*}

/-! ## Filling buffers -/

/-- The items that fit in a buffer, and those that are left. -/
def pack (space : ρ → ℕ) : ℕ → List (ρ × ℕ) → List (ρ × ℕ) × List (ρ × ℕ)
  | _, [] => ([], [])
  | count, item :: items =>
    if count < space item.1 then ([], item :: items)
    else
      let packed := pack space (count - space item.1) items
      (item :: packed.1, packed.2)

/-- What is left each time a buffer is full. -/
def cuts (space : ρ → ℕ) : List (ρ × ℕ) → List ℕ → List (List (ρ × ℕ))
  | _, [] => []
  | items, count :: counts =>
    match (pack space count items).2 with
    | [] => []
    | item :: rest => (item :: rest) :: cuts space (item :: rest) counts

/-- Each buffer has room for the first of the records that are left. -/
def RoomForNext (space : ρ → ℕ) : List (ρ × ℕ) → List ℕ → Prop
  | item :: items, count :: counts =>
    space item.1 ≤ count ∧ RoomForNext space (pack space count (item :: items)).2 counts
  | _, _ => True

def roomFor (space : ρ → ℕ) : List (ρ × ℕ) → ℕ
  | [] => 0
  | item :: items => space item.1 + roomFor space items

variable {count last position : ℕ}

variable {items : List (ρ × ℕ)} {item : ρ × ℕ} {rs rs' : List ρ} {s : σ} {n : ℕ}

section Pack

variable {space : ρ → ℕ}

theorem pack_append (count : ℕ) (items : List (ρ × ℕ)) :
    (pack space count items).1 ++ (pack space count items).2 = items := by
  induction items generalizing count with
  | nil => rfl
  | cons item items ih =>
    rw [pack]
    split_ifs
    · rfl
    · exact congrArg (item :: ·) (ih _)

theorem suffix_of_pack (count : ℕ) (items : List (ρ × ℕ)) : (pack space count items).2 <:+ items :=
  ⟨_, pack_append count items⟩

theorem pack_all (h : roomFor space items ≤ count) : pack space count items = (items, []) := by
  induction items generalizing count with
  | nil => rfl
  | cons item items ih =>
    rw [roomFor] at h
    rw [pack, if_neg (by omega), ih (by omega)]

end Pack

/-! ## Readers -/

/-- What a reader does in a round of its loop: it stops at a position, it fails, it
passes over something, or it finds a record.  The last argument of `emit` is the
position that is kept if the record does not fit. -/
inductive Round (σ ρ : Type*) where
  | stop (position : ℕ)
  | fault
  | skip (next : σ)
  | emit (r : ρ) (next : σ) (resume : ℕ)

/-- The loop of a reader, with the state in which a call begins, a bound on the
rounds of a call, and the space that a record takes. -/
structure Reader (σ ρ : Type*) where
  start : ℕ → σ
  round : σ → Round σ ρ
  rounds : ℕ
  space : ρ → ℕ

namespace Reader

variable (R : Reader σ ρ)

/-- The loop, with the room that is left in the buffer: the records that fit, and
the position that is kept. -/
def loop : ℕ → σ → ℕ → Option (List ρ × ℕ)
  | 0, _, _ => none
  | fuel + 1, s, count =>
    match R.round s with
    | .stop position => some ([], position)
    | .fault => none
    | .skip next => loop fuel next count
    | .emit r next resume =>
      if count < R.space r then some ([], resume)
      else (loop fuel next (count - R.space r)).map fun (rs, position) =>
        (r :: rs, position)

def call (position count : ℕ) : Option (List ρ × ℕ) :=
  R.loop R.rounds (R.start position) count

/-- How a sequence of calls ends. -/
inductive Outcome (ρ : Type*) where
  | unfinished
  | fault
  | finished (rs : List ρ)
deriving DecidableEq

def Outcome.prepend (rs : List ρ) : Outcome ρ → Outcome ρ
  | unfinished => unfinished
  | fault => fault
  | finished rs' => finished (rs ++ rs')

/-- Calls with buffers of the given sizes, until one returns nothing. -/
def paged : ℕ → List ℕ → Outcome ρ
  | _, [] => .unfinished
  | position, count :: counts =>
    match R.call position count with
    | none => .fault
    | some ([], _) => .finished []
    | some (r :: rs, position) => (paged position counts).prepend (r :: rs)

/-! ## What a call returns -/

/-- From the state `s` the reader finds the records `items`, each with the position
that is kept if it does not fit, and stops at `last` in the round `n`. -/
inductive Lists : ℕ → σ → List (ρ × ℕ) → ℕ → Prop
  | stop {s : σ} {last : ℕ} : R.round s = .stop last → Lists 1 s [] last
  | skip {n : ℕ} {s next : σ} {items : List (ρ × ℕ)} {last : ℕ} :
      R.round s = .skip next → Lists n next items last → Lists (n + 1) s items last
  | emit {n : ℕ} {s next : σ} {r : ρ} {resume : ℕ} {items : List (ρ × ℕ)}
      {last : ℕ} :
      R.round s = .emit r next resume → Lists n next items last →
        Lists (n + 1) s ((r, resume) :: items) last

/-- The position that is kept. -/
def resumeAt (last : ℕ) : List (ρ × ℕ) → ℕ
  | [] => last
  | item :: _ => item.2

variable {R}

theorem Lists.loop (h : R.Lists n s items last) {fuel : ℕ} (hfuel : n ≤ fuel) (count : ℕ) :
    R.loop fuel s count = some ((pack R.space count items).1.map fst,
      resumeAt last (pack R.space count items).2) := by
  induction fuel generalizing n s items count with
  | zero =>
    cases h with
    | stop | skip | emit => cases hfuel
  | succ fuel ih =>
    rw [Reader.loop]
    cases h with
    | stop hround =>
      rw [hround]
      rfl
    | skip hround hrest =>
      rw [hround]
      exact ih hrest (Nat.le_of_succ_le_succ hfuel) count
    | emit hround hrest =>
      rw [hround, pack]
      dsimp only
      split_ifs
      · rfl
      · rw [ih hrest (Nat.le_of_succ_le_succ hfuel)]
        rfl

/-- Calls from a position find the given items, and nothing is found after them. -/
def Holds (R : Reader σ ρ) (position : ℕ) (items : List (ρ × ℕ)) : Prop :=
  ∃ n last, n ≤ R.rounds ∧ R.Lists n (R.start position) items last ∧
    ∃ n' last', n' ≤ R.rounds ∧ R.Lists n' (R.start last) [] last'

theorem Holds.call (h : R.Holds position items) :
    ∃ last, (∃ n' last', n' ≤ R.rounds ∧ R.Lists n' (R.start last) [] last') ∧
      ∀ count, R.call position count = some ((pack R.space count items).1.map fst,
        resumeAt last (pack R.space count items).2) := by
  obtain ⟨n, last, hn, hlists, hend⟩ := h
  exact ⟨last, hend, fun count => hlists.loop hn count⟩

theorem Holds.call_all (h : R.Holds position items) (hcount : roomFor R.space items ≤ count) :
    (R.call position count).map fst = some (items.map fst) := by
  obtain ⟨last, -, hcall⟩ := h.call
  rw [hcall, pack_all hcount]
  rfl

/-! ## What the calls return together -/

theorem Outcome.prepend_ne {o : Outcome ρ} (h : o.prepend rs ≠ .unfinished) : o ≠ .unfinished := by
  rintro rfl
  exact h rfl

theorem Outcome.of_prepend {o : Outcome ρ} (h : .finished rs = o.prepend rs') :
    ∃ rest, o = .finished rest ∧ rs = rs' ++ rest := by
  cases o <;> cases h
  exact ⟨_, rfl, rfl⟩

theorem Outcome.prepend_eq_iff {o : Outcome ρ} :
    o.prepend rs = .finished (rs ++ rs') ↔ o = .finished rs' := by
  cases o with
  | unfinished | fault => exact ⟨nofun, nofun⟩
  | finished l =>
    rw [Outcome.prepend, Outcome.finished.injEq, Outcome.finished.injEq, append_cancel_left_eq]

variable {counts : List ℕ}

theorem paged_nil (hend : ∃ n' last', n' ≤ R.rounds ∧ R.Lists n' (R.start last) [] last')
    (hfinished : R.paged last counts ≠ .unfinished) : R.paged last counts = .finished [] := by
  cases counts with
  | nil => exact absurd rfl hfinished
  | cons count counts =>
    obtain ⟨n, last', hn, hlists⟩ := hend
    rw [paged, Reader.call, hlists.loop hn count]
    rfl

/-- The first call of a sequence: nothing is left, the first record does not fit, or
the calls go on from where the buffer is full. -/
theorem Holds.paged_cons (h : R.Holds position (item :: items)) :
    ∃ last, (∃ n' last', n' ≤ R.rounds ∧ R.Lists n' (R.start last) [] last') ∧
      R.paged position (count :: counts) = if count < R.space item.1 then .finished []
        else (R.paged (resumeAt last (pack R.space count (item :: items)).2) counts).prepend
          ((pack R.space count (item :: items)).1.map fst) := by
  obtain ⟨last, hend, hcall⟩ := h.call
  refine ⟨last, hend, ?_⟩
  rw [paged, hcall, pack]
  split_ifs
  · rfl
  · rfl

/-- The calls return all items if and only if each buffer has room for the next one and
is full where the reader goes on. -/
theorem paged_finished_iff {G : List (ρ × ℕ) → Prop} :
    ∀ {position : ℕ} {items : List (ρ × ℕ)}, R.Holds position items →
      (∀ item rest, item :: rest <:+ items → G (item :: rest) → R.Holds item.2 (item :: rest)) →
      (∀ item rest, item :: rest <:+ items → ¬ G (item :: rest) → ∀ counts,
        R.paged item.2 counts ≠ .finished ((item :: rest).map fst)) →
      R.paged position counts ≠ .unfinished →
      (R.paged position counts = .finished (items.map fst) ↔
        RoomForNext R.space items counts ∧ ∀ rest ∈ cuts R.space items counts, G rest) := by
  induction counts with
  | nil => exact fun _ _ _ hfinished => absurd rfl hfinished
  | cons count counts ih =>
    intro position items hholds hgood hbad hfinished
    cases items with
    | nil =>
      obtain ⟨last, -, hcall⟩ := hholds.call
      rw [paged, hcall]
      exact ⟨fun _ => ⟨trivial, nofun⟩, fun _ => rfl⟩
    | cons item items =>
      obtain ⟨last, hend, hpaged⟩ := hholds.paged_cons
      rcases Nat.lt_or_ge count (R.space item.1) with hsmall | hfits
      · rw [hpaged, if_pos hsmall]
        exact iff_of_false nofun fun h => absurd h.1.1 (Nat.not_le.mpr hsmall)
      rw [if_neg (Nat.not_lt.mpr hfits)] at hpaged
      rw [hpaged] at hfinished ⊢
      rw [cuts, RoomForNext, and_iff_right hfits]
      have hall := @pack_append _ R.space count (item :: items)
      have hsuffix := @suffix_of_pack _ R.space count (item :: items)
      generalize pack R.space count (item :: items) = packed at *
      obtain ⟨taken, left⟩ := packed
      rw [← hall, map_append, Outcome.prepend_eq_iff]
      have hnext := Outcome.prepend_ne hfinished
      cases left with
      | nil =>
        exact ⟨fun _ => ⟨by cases counts <;> trivial, nofun⟩, fun _ => paged_nil hend hnext⟩
      | cons next rest =>
        rw [resumeAt] at hnext ⊢
        rw [forall_mem_cons]
        by_cases hG : G (next :: rest)
        · have hrest := ih (hgood next rest hsuffix hG)
            (fun item' rest' h => hgood item' rest' (h.trans hsuffix))
            (fun item' rest' h => hbad item' rest' (h.trans hsuffix)) hnext
          rw [hrest, and_iff_right hG]
        · exact ⟨fun h => absurd h (hbad next rest hsuffix hG counts), fun h => absurd h.2.1 hG⟩

section Resume

variable (hresume : ∀ {s next : σ} {r : ρ} {p : ℕ}, R.round s = .emit r next p → R.start p = s)
include hresume

theorem Lists.suffix {rest : List (ρ × ℕ)}
    (h : R.Lists n s items last) (hsuffix : item :: rest <:+ items) :
    ∃ n' ≤ n, R.Lists n' (R.start item.2) (item :: rest) last := by
  induction h with
  | stop => exact absurd (suffix_nil.mp hsuffix) (cons_ne_nil _ _)
  | skip _ _ ih =>
    obtain ⟨n', hn, hlists⟩ := ih hsuffix
    exact ⟨n', Nat.le_succ_of_le hn, hlists⟩
  | emit hround hrest ih =>
    rcases suffix_cons_iff.mp hsuffix with heq | hsuffix
    · cases heq
      rw [hresume hround]
      exact ⟨_, Nat.le_refl _, .emit hround hrest⟩
    · obtain ⟨n', hn, hlists⟩ := ih hsuffix
      exact ⟨n', Nat.le_succ_of_le hn, hlists⟩

/-- A reader that always goes on returns all items if and only if each buffer has room for
the next one. -/
theorem Holds.paged_eq_iff (h : R.Holds position items)
    (hfinished : R.paged position counts ≠ .unfinished) :
    R.paged position counts = .finished (items.map fst) ↔ RoomForNext R.space items counts := by
  refine (paged_finished_iff (G := fun _ => True) h ?_ ?_ hfinished).trans
    (and_iff_left fun _ _ => trivial)
  · intro item rest hsuffix _
    obtain ⟨n, last, hn, hlists, hend⟩ := h
    obtain ⟨n', hn', hlists'⟩ := Lists.suffix hresume hlists hsuffix
    exact ⟨n', last, Nat.le_trans hn' hn, hlists', hend⟩
  · exact fun _ _ _ hfalse => absurd trivial hfalse

end Resume

/-- The calls return a first record only if it is the one that comes first. -/
theorem Holds.paged_head {r : ρ} (h : R.Holds position (item :: items))
    (hpaged : R.paged position counts = .finished (r :: rs)) : item.1 = r := by
  cases counts with
  | nil => cases hpaged
  | cons count counts =>
    obtain ⟨last, -, heq⟩ := h.paged_cons
    rw [hpaged, pack] at heq
    split_ifs at heq
    · cases heq
    · obtain ⟨rest, -, hrs⟩ := Outcome.of_prepend heq
      exact (cons.inj hrs).1.symm

theorem Holds.paged_length_le {position : ℕ} {items : List (ρ × ℕ)} {rs : List ρ}
    (h : R.Holds position items) (hlose : ∀ item rest, item :: rest <:+ items → R.Holds item.2 rest)
    (hpaged : R.paged position counts = .finished rs) : rs.length ≤ items.length := by
  induction counts generalizing position items rs with
  | nil => cases hpaged
  | cons count counts ih =>
    cases items with
    | nil =>
      obtain ⟨last, -, hcall⟩ := h.call
      rw [paged, hcall] at hpaged
      cases hpaged
      exact Nat.le_refl 0
    | cons item items =>
      obtain ⟨last, hend, heq⟩ := h.paged_cons
      rw [hpaged] at heq
      split_ifs at heq
      · cases heq
        exact Nat.zero_le _
      · obtain ⟨rest, hrest, rfl⟩ := Outcome.of_prepend heq
        have hall := congrArg length (@pack_append _ R.space count (item :: items))
        have hsuffix := @suffix_of_pack _ R.space count (item :: items)
        rw [length_append] at hall
        rw [length_append, length_map, ← hall]
        generalize pack R.space count (item :: items) = packed at *
        obtain ⟨taken, left⟩ := packed
        refine Nat.add_le_add_left ?_ _
        cases left with
        | nil =>
          rw [resumeAt] at hrest
          rw [paged_nil hend (by rw [hrest]; nofun)] at hrest
          cases hrest
          exact Nat.le_refl 0
        | cons next items' =>
          refine Nat.le_succ_of_le (ih (hlose next items' hsuffix) ?_ hrest)
          exact fun item' rest' h => hlose item' rest'
            ((h.trans (suffix_cons next items')).trans hsuffix)

/-! ## Readers that fail -/

/-- A reader with a buffer for all records fails. -/
inductive Faults (R : Reader σ ρ) : σ → Prop
  | fault {s : σ} : R.round s = .fault → Faults R s
  | skip {s next : σ} : R.round s = .skip next → Faults R next → Faults R s
  | emit {s next : σ} {r : ρ} {resume : ℕ} :
      R.round s = .emit r next resume → Faults R next → Faults R s

theorem Faults.loop (h : R.Faults s) :
    ∃ room, ∀ count, room ≤ count → ∀ fuel, R.loop fuel s count = none := by
  induction h with
  | fault hround =>
    refine ⟨0, fun count _ fuel => ?_⟩
    cases fuel with
    | zero => rfl
    | succ fuel => rw [Reader.loop, hround]
  | skip hround _ ih =>
    obtain ⟨room, hroom⟩ := ih
    refine ⟨room, fun count hcount fuel => ?_⟩
    cases fuel with
    | zero => rfl
    | succ fuel =>
      rw [Reader.loop, hround]
      exact hroom count hcount fuel
  | @emit s next r resume hround _ ih =>
    obtain ⟨room, hroom⟩ := ih
    refine ⟨R.space r + room, fun count hcount fuel => ?_⟩
    cases fuel with
    | zero => rfl
    | succ fuel =>
      rw [Reader.loop, hround]
      dsimp only
      rw [if_neg (by omega), hroom _ (by omega), Option.map_none]

theorem paged_ne_of_fault (h : R.round (R.start position) = .fault) :
    R.paged position counts ≠ .finished rs := by
  cases counts with
  | nil => nofun
  | cons count counts =>
    have hcall : R.call position count = none := by
      rw [Reader.call]
      cases R.rounds with
      | zero => rfl
      | succ fuel => rw [Reader.loop, h]
    rw [paged, hcall]
    nofun

/-- One call with room for everything and the calls with the given buffers return the
same records. -/
def Complete (R : Reader σ ρ) (items : List (ρ × ℕ)) (counts : List ℕ) : Prop :=
  (∃ room, ∀ count, room ≤ count → (R.call 0 count).map fst = some (items.map fst)) ∧
  R.paged 0 counts = .finished (items.map fst)

theorem Faults.not_complete (h : R.Faults (R.start 0)) : ¬ R.Complete items counts := by
  rintro ⟨⟨room, hall⟩, -⟩
  obtain ⟨room', hnone⟩ := h.loop
  have hcall := hall (max room room') (Nat.le_max_left _ _)
  rw [Reader.call, hnone _ (Nat.le_max_right _ _)] at hcall
  cases hcall

theorem Holds.complete_iff (h : R.Holds 0 items) :
    R.Complete items counts ↔ R.paged 0 counts = .finished (items.map fst) :=
  ⟨fun hcomplete => hcomplete.2, fun hpaged =>
    ⟨⟨_, fun _ hcount => h.call_all hcount⟩, hpaged⟩⟩

end Reader

end Whitix.Support
