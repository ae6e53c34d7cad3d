import Mathlib.Data.List.Nodup

/-!
# Stores searched from the front

A store is a list of records found by a key. Operations act on the first
record that answers, the way a walk over a linked list does. Uniqueness of
the keys turns such a walk into an operation on the one record of its key.
-/

set_option autoImplicit false

namespace RaptorCommon.KeyedStore

variable {α β κ : Type*} [DecidableEq κ]

/-- Act on the first record that answers and keep its answer. -/
def updateFirst (g : α → Option (β × α)) : List α → Option (β × List α)
  | [] => none
  | a::l => match g a with
    | some r => some (r.1, r.2::l)
    | none => (updateFirst g l).map (fun r => (r.1, a::r.2))

def fetch (key : α → κ) (k : κ) (l : List α) : Option α := l.find? (fun a => key a = k)

def put (key : α → κ) (k : κ) (b : α) (l : List α) : List α :=
  l.map (fun a => if key a = k then b else a)

/-- Change the record of a key where there is one and add a record where not. -/
def upsert (key : α → κ) (k : κ) (f : α → α) (new : α) (l : List α) : List α :=
  match updateFirst (fun a => if key a = k then some ((), f a) else none) l with
  | some r => r.2
  | none => new::l

def Unique (key : α → κ) (l : List α) : Prop := (l.map key).Nodup

theorem fetch_cons (key : α → κ) (k : κ) (a : α) (l : List α) :
    fetch key k (a::l) = if key a = k then some a else fetch key k l := by
  by_cases h : key a = k <;> simp [fetch, h]

theorem fetch_key {key : α → κ} {k : κ} {l : List α} {a : α} (h : fetch key k l = some a) :
    key a = k := by
  simpa using List.find?_some h

theorem fetch_mem {key : α → κ} {k : κ} {l : List α} {a : α} (h : fetch key k l = some a) :
    a ∈ l := List.mem_of_find?_eq_some h

theorem fetch_none {key : α → κ} {k : κ} {l : List α} :
    fetch key k l = none ↔ ∀ a ∈ l, key a ≠ k := by
  simp [fetch]

theorem fetch_of_mem {key : α → κ} {l : List α} (hu : Unique key l) {a : α} (ha : a ∈ l) :
    fetch key (key a) l = some a := by
  induction l with
  | nil => simp at ha
  | cons b l ih =>
    obtain ⟨hb, hl⟩ := List.nodup_cons.mp hu
    rw [fetch_cons]
    rcases List.mem_cons.mp ha with rfl | ha
    · simp
    · have hne : key b ≠ key a := fun h => hb (by rw [h]; exact List.mem_map_of_mem ha)
      rw [if_neg hne, ih hl ha]

theorem put_absent {key : α → κ} {k : κ} {l : List α} (b : α) (h : k ∉ l.map key) :
    put key k b l = l := by
  unfold put
  conv_rhs => rw [← List.map_id l]
  apply List.map_congr_left
  intro a ha
  have hne : key a ≠ k := fun hk => h (by rw [← hk]; exact List.mem_map_of_mem ha)
  rw [if_neg hne, id]

theorem map_key_put {key : α → κ} {k : κ} {b : α} (hb : key b = k) (l : List α) :
    (put key k b l).map key = l.map key := by
  simp only [put, List.map_map]
  apply List.map_congr_left
  intro a _
  by_cases h : key a = k <;> simp [h, hb]

theorem unique_put {key : α → κ} {k : κ} {b : α} {l : List α} (hb : key b = k)
    (hu : Unique key l) : Unique key (put key k b l) := by
  rw [Unique, map_key_put hb]
  exact hu

theorem fetch_put {key : α → κ} {k : κ} {b : α} (hb : key b = k) (j : κ) (l : List α) :
    fetch key j (put key k b l) = if j = k then (fetch key k l).map (fun _ => b) else fetch key j l := by
  induction l with
  | nil => simp [put, fetch]
  | cons a l ih =>
    change fetch key j ((if key a = k then b else a)::put key k b l) = _
    rw [fetch_cons, fetch_cons, fetch_cons, ih]
    by_cases ha : key a = k <;> by_cases hj : j = k
    · simp [ha, hj, hb]
    · simp [ha, hj, hb, Ne.symm hj]
    · simp [ha, hj]
    · simp [ha, hj]

theorem mem_put {key : α → κ} {k : κ} {b a : α} {l : List α} (h : a ∈ put key k b l) :
    a = b ∨ a ∈ l ∧ key a ≠ k := by
  obtain ⟨c, hc, rfl⟩ := List.mem_map.mp h
  by_cases hk : key c = k
  · exact Or.inl (if_pos hk)
  · rw [if_neg hk]
    exact Or.inr ⟨hc, hk⟩

theorem update_first_keyed {key : α → κ} {k : κ} {g : α → Option (β × α)} {l : List α}
    (hu : Unique key l) (hg : ∀ a, key a ≠ k → g a = none) :
    updateFirst g l =
      (fetch key k l).bind (fun a => (g a).map (fun r => (r.1, put key k r.2 l))) := by
  induction l with
  | nil => rfl
  | cons a l ih =>
    obtain ⟨ha, hl⟩ := List.nodup_cons.mp hu
    rw [fetch_cons]
    by_cases hk : key a = k
    · rw [if_pos hk, Option.bind_some]
      cases h : g a with
      | some r =>
        have hp : put key k r.2 (a::l) = r.2::l := by
          have ht : put key k r.2 l = l := put_absent r.2 (hk ▸ ha)
          simpa [put, hk] using ht
        simp [updateFirst, h, hp]
      | none =>
        have hn : fetch key k l = none :=
          fetch_none.mpr fun b hb hbk => ha (hk ▸ hbk ▸ List.mem_map_of_mem hb)
        simp [updateFirst, h, ih hl, hn]
    · rw [if_neg hk, updateFirst, hg a hk]
      simp only [ih hl, Option.map_bind, Option.map_map, Function.comp_def]
      congr 1
      funext b
      cases g b <;> simp [put, hk]

theorem update_first_mem {g : α → Option (β × α)} {l : List α} {r : β × List α}
    (h : updateFirst g l = some r) :
    ∀ a ∈ r.2, a ∈ l ∨ ∃ b ∈ l, g b = some (r.1, a) := by
  induction l generalizing r with
  | nil => simp [updateFirst] at h
  | cons c l ih =>
    intro a ha
    rw [updateFirst] at h
    cases hc : g c with
    | some s =>
      simp only [hc, Option.some.injEq] at h
      subst h
      rcases List.mem_cons.mp ha with rfl | ha
      · exact Or.inr ⟨c, by simp, hc⟩
      · exact Or.inl (by simp [ha])
    | none =>
      simp only [hc, Option.map_eq_some_iff] at h
      obtain ⟨s, hs, rfl⟩ := h
      rcases List.mem_cons.mp ha with rfl | ha
      · exact Or.inl (by simp)
      · rcases ih hs a ha with h | ⟨b, hb, h⟩
        · exact Or.inl (by simp [h])
        · exact Or.inr ⟨b, by simp [hb], h⟩

theorem update_first_none {g : α → Option (β × α)} {l : List α} :
    updateFirst g l = none ↔ ∀ a ∈ l, g a = none := by
  induction l with
  | nil => simp [updateFirst]
  | cons a l ih =>
    cases h : g a <;> simp [updateFirst, h, ih]

theorem update_first_map {γ : Type*} {h : α → γ} {g : α → Option (β × α)} {l : List α}
    (hg : ∀ a r, g a = some r → h r.2 = h a) {r : β × List α} (hr : updateFirst g l = some r) :
    r.2.map h = l.map h := by
  induction l generalizing r with
  | nil => cases hr
  | cons a l ih =>
    rw [updateFirst] at hr
    cases ha : g a with
    | some x =>
      rw [ha] at hr
      cases hr
      exact congrArg (·::l.map h) (hg a x ha)
    | none =>
      rw [ha] at hr
      obtain ⟨x, hx, rfl⟩ := Option.map_eq_some_iff.mp hr
      exact congrArg (h a::·) (ih hx)

theorem upsert_mem {key : α → κ} {k : κ} {f : α → α} {new : α} {l : List α} {a : α}
    (h : a ∈ upsert key k f new l) :
    a ∈ l ∨ a = new ∨ ∃ b ∈ l, key b = k ∧ a = f b := by
  unfold upsert at h
  split at h
  next r hr =>
    rcases update_first_mem hr a h with h | ⟨b, hb, h⟩
    · exact Or.inl h
    · by_cases hk : key b = k
      · simp only [if_pos hk, Option.some.injEq, Prod.mk.injEq] at h
        exact Or.inr (Or.inr ⟨b, hb, hk, h.2.symm⟩)
      · simp [hk] at h
  next =>
    rcases List.mem_cons.mp h with h | h
    · exact Or.inr (Or.inl h)
    · exact Or.inl h

theorem upsert_keeps {P : α → Prop} {key : α → κ} {k : κ} {f : α → α} {new : α} {l : List α}
    (hf : ∀ a, P a → P (f a)) (h : ∃ a ∈ l, P a) : ∃ a ∈ upsert key k f new l, P a := by
  unfold upsert
  induction l with
  | nil => simp at h
  | cons b l ih =>
    rw [updateFirst]
    by_cases hb : key b = k
    · rw [if_pos hb]
      obtain ⟨a, ha, hp⟩ := h
      rcases List.mem_cons.mp ha with rfl | ha
      · exact ⟨f a, by simp, hf a hp⟩
      · exact ⟨a, by simp [ha], hp⟩
    · rw [if_neg hb]
      dsimp only
      obtain ⟨a, ha, hp⟩ := h
      cases hu : updateFirst (fun a => if key a = k then some ((), f a) else none) l with
      | none => exact ⟨a, List.mem_cons_of_mem new ha, hp⟩
      | some r =>
        rw [hu] at ih
        rcases List.mem_cons.mp ha with rfl | ha
        · exact ⟨a, by simp, hp⟩
        · obtain ⟨c, hc, hp⟩ := ih ⟨a, ha, hp⟩
          exact ⟨c, List.mem_cons_of_mem b hc, hp⟩

theorem upsert_has {P : α → Prop} {key : α → κ} {k : κ} {f : α → α} {new : α} {l : List α}
    (hf : ∀ a, key a = k → P (f a)) (hnew : P new) : ∃ a ∈ upsert key k f new l, P a := by
  unfold upsert
  induction l with
  | nil => exact ⟨new, by simp [updateFirst], hnew⟩
  | cons b l ih =>
    rw [updateFirst]
    by_cases hb : key b = k
    · rw [if_pos hb]
      exact ⟨f b, by simp, hf b hb⟩
    · rw [if_neg hb]
      dsimp only
      cases hu : updateFirst (fun a => if key a = k then some ((), f a) else none) l with
      | none => exact ⟨new, by simp, hnew⟩
      | some r =>
        rw [hu] at ih
        obtain ⟨c, hc, hp⟩ := ih
        exact ⟨c, List.mem_cons_of_mem b hc, hp⟩

/-- Under unique keys an update-or-insert is a replacement or an insertion. -/
theorem upsert_keyed {key : α → κ} {k : κ} {l : List α} (f : α → α) (new : α)
    (hu : Unique key l) :
    upsert key k f new l = match fetch key k l with
      | some a => put key k (f a) l
      | none => new::l := by
  unfold upsert
  rw [update_first_keyed (k := k) hu (fun a ha => if_neg ha)]
  cases h : fetch key k l with
  | none => rfl
  | some a => simp [fetch_key h]

theorem unique_upsert {key : α → κ} {k : κ} {f : α → α} {new : α} {l : List α}
    (hn : key new = k) (hf : ∀ a, key (f a) = key a) (hu : Unique key l) :
    Unique key (upsert key k f new l) := by
  rw [upsert_keyed f new hu]
  cases h : fetch key k l with
  | some a => exact unique_put ((hf a).trans (fetch_key h)) hu
  | none =>
    refine List.nodup_cons.mpr ⟨fun hm => ?_, hu⟩
    obtain ⟨b, hb, hk⟩ := List.mem_map.mp hm
    have := fetch_of_mem hu hb
    rw [hk, hn, h] at this
    cases this

theorem fetch_upsert {key : α → κ} {k : κ} {f : α → α} {new : α} {l : List α}
    (hn : key new = k) (hf : ∀ a, key (f a) = key a) (hu : Unique key l) (j : κ) :
    fetch key j (upsert key k f new l) =
      if j = k then some ((fetch key k l).elim new f) else fetch key j l := by
  rw [upsert_keyed f new hu]
  cases h : fetch key k l with
  | some a =>
    rw [fetch_put ((hf a).trans (fetch_key h)), h]
    rfl
  | none =>
    rw [fetch_cons, hn]
    by_cases hj : j = k
    · simp [hj]
    · simp [hj, Ne.symm hj]

theorem upsert_absent {key : α → κ} {k : κ} {f : α → α} {new : α} {l : List α}
    (h : k ∉ l.map key) : upsert key k f new l = new::l := by
  have hnone : updateFirst (fun a => if key a = k then some ((), f a) else none) l = none :=
    update_first_none.mpr fun a ha => if_neg fun hk : key a = k =>
      h (hk ▸ List.mem_map_of_mem ha)
  rw [upsert, hnone]

theorem upsert_map_present {γ : Type*} {g : α → γ} {key : α → κ} {k : κ} {f : α → α} {new : α}
    {l : List α} (h : k ∈ l.map key) (hg : ∀ a ∈ l, key a = k → g (f a) = g a) :
    (upsert key k f new l).map g = l.map g := by
  induction l with
  | nil => cases h
  | cons b l ih =>
    by_cases hb : key b = k
    · have hu : upsert key k f new (b::l) = f b::l := by simp [upsert, updateFirst, hb]
      rw [hu, List.map_cons, List.map_cons, hg b (by simp) hb]
    · have hk : k ∈ l.map key := by
        rcases List.mem_cons.mp h with h | h
        · exact absurd h.symm hb
        · exact h
      have htail := ih hk fun a ha => hg a (List.mem_cons_of_mem b ha)
      unfold upsert at htail ⊢
      rw [updateFirst, if_neg hb]
      cases hu : updateFirst (fun a => if key a = k then some ((), f a) else none) l with
      | none =>
        obtain ⟨a, ha, hak⟩ := List.mem_map.mp hk
        have := update_first_none.mp hu a ha
        rw [if_pos hak] at this
        cases this
      | some r =>
        rw [hu] at htail
        exact congrArg (g b::·) htail

/-- Adding a record under another key than the one looked for keeps keys
unique exactly when that key is found or the added one is new. -/
theorem unique_upsert_iff {key : α → κ} {k : κ} {f : α → α} {new : α} {l : List α}
    (hf : ∀ a, key (f a) = key a) (hu : Unique key l) :
    Unique key (upsert key k f new l) ↔ k ∈ l.map key ∨ key new ∉ l.map key := by
  by_cases h : k ∈ l.map key
  · rw [Unique, upsert_map_present h fun a _ _ => hf a]
    exact iff_of_true hu (Or.inl h)
  · rw [upsert_absent h, Unique, List.map_cons, List.nodup_cons]
    exact ⟨fun hn => Or.inr hn.1, fun hn => ⟨hn.resolve_left h, hu⟩⟩

theorem unique_of_upsert {key : α → κ} {k : κ} {f : α → α} {new : α} {l : List α}
    (hf : ∀ a, key (f a) = key a) (hu : Unique key (upsert key k f new l)) : Unique key l := by
  by_cases h : k ∈ l.map key
  · rw [Unique, upsert_map_present h fun a _ _ => hf a] at hu
    exact hu
  · rw [upsert_absent h, Unique, List.map_cons, List.nodup_cons] at hu
    exact hu.2

theorem find_some_keyed {key : α → κ} {k : κ} {g : α → Option β} {l : List α}
    (hu : Unique key l) (hg : ∀ a, key a ≠ k → g a = none) :
    l.findSome? g = (fetch key k l).bind g := by
  induction l with
  | nil => rfl
  | cons a l ih =>
    obtain ⟨ha, hl⟩ := List.nodup_cons.mp hu
    rw [fetch_cons, List.findSome?_cons, ih hl]
    by_cases hk : key a = k
    · have hn : fetch key k l = none :=
        fetch_none.mpr fun b hb hbk => ha (hk ▸ hbk ▸ List.mem_map_of_mem hb)
      rw [if_pos hk, hn]
      cases h : g a <;> simp [h]
    · rw [hg a hk, if_neg hk]

theorem filter_keyed {key : α → κ} {k : κ} {p : α → Bool} {l : List α} (hu : Unique key l)
    (hp : ∀ a, p a = true → key a = k) : l.filter p = ((fetch key k l).filter p).toList := by
  induction l with
  | nil => rfl
  | cons a l ih =>
    obtain ⟨ha, hl⟩ := List.nodup_cons.mp hu
    rw [fetch_cons]
    by_cases hk : key a = k
    · have hnone : fetch key k l = none :=
        fetch_none.mpr fun b hb hbk => ha (hk ▸ hbk ▸ List.mem_map_of_mem hb)
      have hrest := ih hl
      rw [hnone] at hrest
      rw [if_pos hk, List.filter_cons, hrest]
      cases h : p a <;> simp [h, Option.filter]
    · have hpa : ¬p a = true := fun h => hk (hp a h)
      rw [if_neg hk, List.filter_cons_of_neg hpa, ih hl]

theorem fetch_map {key : α → κ} {f : α → α} (hf : ∀ a, key (f a) = key a) (k : κ) (l : List α) :
    fetch key k (l.map f) = (fetch key k l).map f := by
  induction l with
  | nil => rfl
  | cons a l ih =>
    rw [List.map_cons, fetch_cons, fetch_cons, hf, ih]
    by_cases h : key a = k <;> simp [h]

omit [DecidableEq κ] in
theorem unique_map {key : α → κ} {f : α → α} (hf : ∀ a, key (f a) = key a) {l : List α} :
    Unique key (l.map f) ↔ Unique key l := by
  have h : (l.map f).map key = l.map key := by
    rw [List.map_map]
    exact List.map_congr_left fun a _ => hf a
  rw [Unique, Unique, h]

end RaptorCommon.KeyedStore
