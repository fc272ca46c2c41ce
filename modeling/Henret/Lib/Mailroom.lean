import Mathlib

/-!
# Moves through a family of queues

A system appends elements to queues and takes them out again.  Whatever the
order of its moves, nothing is lost and nothing is duplicated: what was taken
out of a queue and what it still holds are together what it held at first and
what was appended to it.  When only heads are taken, they also come in that
order.
-/

namespace Mailroom

variable {σ τ κ : Type*}

inductive Move (σ τ : Type*) where
  | idle
  | post (a : σ) (x : τ)
  | take (a : σ) (x : τ)
deriving DecidableEq, Repr

theorem filterMap_cons_toList {α β : Type*} (f : α → Option β) (x : α) (xs : List α) :
    (x :: xs).filterMap f = (f x).toList ++ xs.filterMap f := by
  cases hfx : f x <;> simp [hfx]

/-- The destination and the element of a posting. -/
def Move.sent : Move σ τ → Option (σ × τ)
  | post a x => some (a, x)
  | _ => none

def sent (ms : List (Move σ τ)) : List (σ × τ) := ms.filterMap Move.sent

/-- The source and the element of a taking. -/
def Move.received : Move σ τ → Option (σ × τ)
  | take a x => some (a, x)
  | _ => none

def received (ms : List (Move σ τ)) : List (σ × τ) := ms.filterMap Move.received

theorem sent_cons (m : Move σ τ) (ms : List (Move σ τ)) :
    sent (m :: ms) = m.sent.toList ++ sent ms := filterMap_cons_toList _ _ _

theorem received_cons (m : Move σ τ) (ms : List (Move σ τ)) :
    received (m :: ms) = m.received.toList ++ received ms := filterMap_cons_toList _ _ _

theorem mem_sent {a : σ} {x : τ} {ms : List (Move σ τ)} :
    (a, x) ∈ sent ms ↔ .post a x ∈ ms := by
  rw [sent, List.mem_filterMap]
  constructor
  · rintro ⟨m, hm, hx⟩
    cases m with
    | post b y =>
        obtain ⟨rfl, rfl⟩ : b = a ∧ y = x := by simpa [Move.sent] using hx
        exact hm
    | _ => simp [Move.sent] at hx
  · intro h
    exact ⟨_, h, rfl⟩

/-- Among postings with distinct keys, a key names one posting. -/
theorem post_unique {f : τ → κ} {a b : σ} {x y : τ} {ms : List (Move σ τ)}
    (hkeys : ((sent ms).map fun p ↦ f p.2).Nodup) (hx : .post a x ∈ ms)
    (hy : .post b y ∈ ms) (hkey : f x = f y) : a = b ∧ x = y := by
  have hpair : (a, x) = (b, y) :=
    List.inj_on_of_nodup_map hkeys (mem_sent.mpr hx) (mem_sent.mpr hy) hkey
  exact Prod.mk.inj hpair

theorem mem_received {a : σ} {x : τ} {ms : List (Move σ τ)} :
    (a, x) ∈ received ms ↔ .take a x ∈ ms := by
  rw [received, List.mem_filterMap]
  constructor
  · rintro ⟨m, hm, hx⟩
    cases m with
    | take b y =>
        obtain ⟨rfl, rfl⟩ : b = a ∧ y = x := by simpa [Move.received] using hx
        exact hm
    | _ => simp [Move.received] at hx
  · intro h
    exact ⟨_, h, rfl⟩

variable [DecidableEq σ] {a b : σ} {x y : τ} {m : Move σ τ} {ms : List (Move σ τ)}

namespace Move

def postedTo (a : σ) : Move σ τ → Option τ
  | post b x => if b = a then some x else none
  | _ => none

def takenFrom (a : σ) : Move σ τ → Option τ
  | take b x => if b = a then some x else none
  | _ => none

theorem postedTo_eq_some : m.postedTo a = some x ↔ m = .post a x := by
  cases m <;> simp [postedTo]

theorem takenFrom_eq_some : m.takenFrom a = some x ↔ m = .take a x := by
  cases m <;> simp [takenFrom]

end Move

def posted (a : σ) (ms : List (Move σ τ)) : List τ := ms.filterMap (Move.postedTo a)

def taken (a : σ) (ms : List (Move σ τ)) : List τ := ms.filterMap (Move.takenFrom a)

theorem posted_cons (a : σ) (m : Move σ τ) (ms : List (Move σ τ)) :
    posted a (m :: ms) = (m.postedTo a).toList ++ posted a ms := filterMap_cons_toList _ _ _

theorem taken_cons (a : σ) (m : Move σ τ) (ms : List (Move σ τ)) :
    taken a (m :: ms) = (m.takenFrom a).toList ++ taken a ms := filterMap_cons_toList _ _ _

theorem mem_posted : x ∈ posted a ms ↔ .post a x ∈ ms := by
  simp [posted, List.mem_filterMap, Move.postedTo_eq_some]

theorem mem_taken : x ∈ taken a ms ↔ .take a x ∈ ms := by
  simp [taken, List.mem_filterMap, Move.takenFrom_eq_some]

/-- What was posted to one queue is a part of what was sent, in order. -/
theorem posted_sublist_sent : (posted a ms).Sublist ((sent ms).map Prod.snd) := by
  induction ms with
  | nil => exact List.Sublist.refl []
  | cons m ms ih =>
      rw [posted_cons, sent_cons, List.map_append]
      apply List.Sublist.append _ ih
      cases m with
      | post b y =>
          by_cases hba : b = a
          · simp [Move.postedTo, Move.sent, hba]
          · simp [Move.postedTo, Move.sent, hba]
      | _ => exact List.Sublist.refl []

theorem count_received [DecidableEq τ] (a : σ) (x : τ) (ms : List (Move σ τ)) :
    (received ms).count (a, x) = (taken a ms).count x := by
  induction ms with
  | nil => rfl
  | cons m ms ih =>
      rw [received_cons, taken_cons, List.count_append, List.count_append]
      refine congrArg₂ (· + ·) ?_ ih
      cases m with
      | take b y =>
          by_cases hba : b = a
          · simp [Move.received, Move.takenFrom, hba, List.count_singleton]
          · simp [Move.received, Move.takenFrom, hba]
      | _ => rfl

/-! ## One move -/

variable {skips : List τ → Prop} {q q' q'' : σ → List τ}

/-- The move leads from the queues `q` to the queues `q'`.  A taking may pass
over the elements of `l` in front of the one it takes if `skips l`. -/
inductive Performs (skips : List τ → Prop) (q : σ → List τ) :
    Move σ τ → (σ → List τ) → Prop where
  | idle : Performs skips q .idle q
  | post (a : σ) (x : τ) : Performs skips q (.post a x) (Function.update q a (q a ++ [x]))
  | take {a : σ} {x : τ} {l r : List τ} (h : q a = l ++ x :: r) (hl : skips l) :
      Performs skips q (.take a x) (Function.update q a (l ++ r))

namespace Performs

theorem imp {skips' : List τ → Prop} (h : Performs skips q m q')
    (hskips : ∀ l, skips l → skips' l) : Performs skips' q m q' := by
  cases h with
  | idle => exact .idle
  | post a x => exact .post a x
  | take h hl => exact .take h (hskips _ hl)

/-- What a move does to one queue. -/
theorem effect (h : Performs skips q m q') (a : σ) :
    (m.takenFrom a = none ∧ m.postedTo a = none ∧ q' a = q a) ∨
      (∃ x, m.takenFrom a = none ∧ m.postedTo a = some x ∧ q' a = q a ++ [x]) ∨
        ∃ x l r, m.takenFrom a = some x ∧ m.postedTo a = none ∧
          q a = l ++ x :: r ∧ skips l ∧ q' a = l ++ r := by
  cases h with
  | idle => exact Or.inl ⟨rfl, rfl, rfl⟩
  | post b x =>
      by_cases hba : b = a
      · subst hba
        exact Or.inr (Or.inl ⟨x, by simp [Move.takenFrom, Move.postedTo]⟩)
      · refine Or.inl ⟨rfl, ?_, Function.update_of_ne (Ne.symm hba) _ _⟩
        simp [Move.postedTo, hba]
  | @take b x l r hq hl =>
      by_cases hba : b = a
      · subst hba
        refine Or.inr (Or.inr ⟨x, l, r, ?_, rfl, hq, hl, Function.update_self _ _ _⟩)
        simp [Move.takenFrom]
      · refine Or.inl ⟨?_, rfl, Function.update_of_ne (Ne.symm hba) _ _⟩
        simp [Move.takenFrom, hba]

theorem perm (h : Performs skips q m q') (a : σ) :
    ((m.takenFrom a).toList ++ q' a).Perm (q a ++ (m.postedTo a).toList) := by
  obtain ⟨ht, hp, hq⟩ | ⟨x, ht, hp, hq⟩ | ⟨x, l, r, ht, hp, hq, hl, hq'⟩ := h.effect a
  · simp [ht, hp, hq]
  · simp [ht, hp, hq]
  · simpa [ht, hp, hq, hq'] using List.perm_middle.symm

theorem sublist (h : Performs skips q m q') (a : σ) :
    (q' a).Sublist (q a ++ (m.postedTo a).toList) := by
  obtain ⟨ht, hp, hq⟩ | ⟨x, ht, hp, hq⟩ | ⟨x, l, r, ht, hp, hq, hl, hq'⟩ := h.effect a
  · simp [hp, hq]
  · simp [hp, hq]
  · simp [hp, hq, hq']

theorem inOrder (h : Performs skips q m q') (hskips : ∀ l, skips l → l = []) (a : σ) :
    (m.takenFrom a).toList ++ q' a = q a ++ (m.postedTo a).toList := by
  obtain ⟨ht, hp, hq⟩ | ⟨x, ht, hp, hq⟩ | ⟨x, l, r, ht, hp, hq, hl, hq'⟩ := h.effect a
  · simp [ht, hp, hq]
  · simp [ht, hp, hq]
  · simp [ht, hp, hq, hq', hskips l hl]

end Performs

/-! ## Runs of moves -/

inductive Transfers (skips : List τ → Prop) :
    (σ → List τ) → List (Move σ τ) → (σ → List τ) → Prop where
  | nil {q : σ → List τ} : Transfers skips q [] q
  | cons {q q' q'' : σ → List τ} {m : Move σ τ} {ms : List (Move σ τ)}
      (h : Performs skips q m q') (hs : Transfers skips q' ms q'') :
      Transfers skips q (m :: ms) q''

namespace Transfers

/-- Nothing is lost and nothing is duplicated. -/
theorem perm (h : Transfers skips q ms q') (a : σ) :
    (taken a ms ++ q' a).Perm (q a ++ posted a ms) := by
  induction h with
  | nil => simp [taken, posted]
  | @cons q q' q'' m ms hm hs ih =>
      rw [taken_cons, posted_cons, List.append_assoc]
      have hrest : ((m.takenFrom a).toList ++ (taken a ms ++ q'' a)).Perm
          ((m.takenFrom a).toList ++ (q' a ++ posted a ms)) := ih.append_left _
      have hmove : ((m.takenFrom a).toList ++ q' a ++ posted a ms).Perm
          (q a ++ (m.postedTo a).toList ++ posted a ms) := (hm.perm a).append_right _
      rw [List.append_assoc, List.append_assoc] at hmove
      exact hrest.trans hmove

/-- The order inside a queue is the order of posting. -/
theorem sublist (h : Transfers skips q ms q') (a : σ) :
    (q' a).Sublist (q a ++ posted a ms) := by
  induction h with
  | nil => simp [posted]
  | @cons q q' q'' m ms hm hs ih =>
      rw [posted_cons, ← List.append_assoc]
      exact ih.trans ((hm.sublist a).append_right _)

/-- First in, first out. -/
theorem inOrder (h : Transfers skips q ms q') (hskips : ∀ l, skips l → l = []) (a : σ) :
    taken a ms ++ q' a = q a ++ posted a ms := by
  induction h with
  | nil => simp [taken, posted]
  | @cons q q' q'' m ms hm hs ih =>
      rw [taken_cons, posted_cons, List.append_assoc]
      calc (m.takenFrom a).toList ++ (taken a ms ++ q'' a)
          = (m.takenFrom a).toList ++ q' a ++ posted a ms := by rw [ih, List.append_assoc]
        _ = q a ++ ((m.postedTo a).toList ++ posted a ms) := by
              rw [hm.inOrder hskips, List.append_assoc]

end Transfers

/-! ## Elements with keys -/

section Keys

variable {f : τ → κ}

theorem posted_nodup (hkeys : ((sent ms).map fun p ↦ f p.2).Nodup) (a : σ) :
    ((posted a ms).map f).Nodup := by
  have hmap : (sent ms).map (fun p ↦ f p.2) = ((sent ms).map Prod.snd).map f := by
    rw [List.map_map]
    rfl
  rw [hmap] at hkeys
  exact hkeys.sublist (posted_sublist_sent.map f)

namespace Transfers

variable (h : Transfers skips (fun _ ↦ []) ms q)
include h

theorem nodup (hkeys : ((sent ms).map fun p ↦ f p.2).Nodup) (a : σ) :
    ((taken a ms ++ q a).map f).Nodup := by
  have hperm := (h.perm a).map f
  rw [List.nil_append] at hperm
  exact hperm.nodup_iff.mpr (posted_nodup hkeys a)

theorem post_iff : .post a x ∈ ms ↔ .take a x ∈ ms ∨ x ∈ q a := by
  rw [← mem_posted, ← mem_taken, ← List.mem_append, (h.perm a).mem_iff, List.nil_append]

/-- An element is taken at most once, and then its queue no longer holds it. -/
theorem not_taken_and_held (hkeys : ((sent ms).map fun p ↦ f p.2).Nodup)
    (hx : .take a x ∈ ms) (hy : y ∈ q a) : f x ≠ f y := by
  have hnodup := h.nodup hkeys a
  rw [List.map_append] at hnodup
  have hdisjoint := List.disjoint_of_nodup_append hnodup
  intro heq
  apply hdisjoint (List.mem_map_of_mem (mem_taken.mpr hx))
  rw [heq]
  exact List.mem_map_of_mem hy

/-- No two takings take the same element. -/
theorem received_nodup (hkeys : ((sent ms).map fun p ↦ f p.2).Nodup) :
    ((received ms).map fun p ↦ f p.2).Nodup := by
  classical
  have hpairs : (received ms).Nodup := by
    rw [List.nodup_iff_count_le_one]
    rintro ⟨a, x⟩
    rw [count_received]
    have htaken : ((taken a ms).map f).Nodup := by
      have hnodup := h.nodup hkeys a
      rw [List.map_append] at hnodup
      exact (List.nodup_append.mp hnodup).1
    exact List.nodup_iff_count_le_one.mp (List.Nodup.of_map f htaken) x
  refine List.Nodup.map_on ?_ hpairs
  rintro ⟨a, x⟩ hx ⟨b, y⟩ hy hkey
  have hpostx := h.post_iff.mpr (Or.inl (mem_received.mp hx))
  have hposty := h.post_iff.mpr (Or.inl (mem_received.mp hy))
  obtain ⟨rfl, rfl⟩ := post_unique hkeys hpostx hposty hkey
  rfl

end Transfers

end Keys

end Mailroom
