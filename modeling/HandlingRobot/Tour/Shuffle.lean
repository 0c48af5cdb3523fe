import HandlingRobot.Library.CountingLoop
import Mathlib.Data.List.Perm.Subperm
import Mathlib.Data.List.Nodup
import Mathlib.Data.List.Range

/-! # The shuffle of the planner

`shuffle(a, n)` draws `n` places by `rand()`, probing upwards from a place that is taken, and copies
the entries of `a` in the order of the places. Its local tables have 13 entries.

* **`shuffle`** — the new array and the number of calls of `rand()` made so far; `none` when a local
  table is left, or when the probing finds no free place.
* **`place`** — the place drawn for each entry: the shuffle of the identity.
* **`shuffle_eq`** — a shuffle rearranges its array by the drawn places, whatever the entries are.
* **`shuffle_permutes_iff`** — that is a permutation, of arrays that fit the local tables. -/

namespace HandlingRobot

/-- The size of the local tables `tmp` and `vis`. -/
def tableSize : ℕ := 13

/-- The local variables of `shuffle`. -/
structure Deal where
  lst : ℕ
  tmp : ℕ → ℕ
  vis : ℕ → Bool
  /-- The number of calls of `rand()` made so far. -/
  calls : ℕ

/-- `while (vis[lst]) ++lst, lst %= n`, for at most `fuel` tests. -/
def probe (n : ℕ) (vis : ℕ → Bool) : ℕ → ℕ → Option ℕ
  | 0, _ => none
  | fuel + 1, lst =>
      if lst < tableSize then
        if vis lst then probe n vis fuel ((lst + 1) % n) else some lst
      else none

/-- `tmp[t] = v, vis[lst] = 1`, after one call of `rand()`. -/
def Deal.take (d : Deal) (t lst v : ℕ) : Deal where
  lst := lst
  tmp := fun i => if i = t then v else d.tmp i
  vis := fun i => if i = lst then true else d.vis i
  calls := d.calls + 1

/-- One turn of the first loop of `shuffle`. -/
def shuffleStep (rand : ℕ → ℕ) (n : ℕ) (a : ℕ → ℕ) (t : ℕ) (d : Deal) : Option Deal := do
  let lst ← probe n d.vis n ((d.lst + rand d.calls % n) % n)
  if t < tableSize then some (d.take t lst (a lst)) else none

/-- The local variables at the start, with the tables cleared. -/
def Deal.start (calls : ℕ) : Deal := ⟨0, fun _ => 0, fun _ => false, calls⟩

/-- **`shuffle(a, n)`**, with the results of `rand()` from the call numbered `calls` on. -/
def shuffle (rand : ℕ → ℕ) (calls n : ℕ) (a : ℕ → ℕ) : Option ((ℕ → ℕ) × ℕ) := do
  let d ← forLoop 0 n (shuffleStep rand n a) (Deal.start calls)
  some (fun i => if i < n then d.tmp i else a i, d.calls)

/-! ## Probing -/

/-- Probing ends at the first free place, counted cyclically. -/
theorem probe_yields {n : ℕ} {vis : ℕ → Bool} (hn : n ≤ tableSize) (k : ℕ) :
    ∀ fuel lst, k < fuel → lst < n → vis ((lst + k) % n) = false →
      Yields (probe n vis fuel lst) fun p => p < n ∧ vis p = false := by
  -- place after place, until one is free
  induction k with
  | zero =>
      intro fuel lst hfuel hlst hfree
      obtain ⟨fuel, rfl⟩ := Nat.exists_eq_succ_of_ne_zero (Nat.ne_of_gt hfuel)
      rw [Nat.add_zero, Nat.mod_eq_of_lt hlst] at hfree
      refine ⟨lst, ?_, hlst, hfree⟩
      simp [probe, hfree, Nat.lt_of_lt_of_le hlst hn]
  | succ k ih =>
      intro fuel lst hfuel hlst hfree
      obtain ⟨fuel, rfl⟩ := Nat.exists_eq_succ_of_ne_zero (Nat.ne_of_gt (Nat.zero_lt_of_lt hfuel))
      have hsize : lst < tableSize := Nat.lt_of_lt_of_le hlst hn
      by_cases hvis : vis lst = true
      · have hnext : probe n vis (fuel + 1) lst = probe n vis fuel ((lst + 1) % n) := by
          simp [probe, hsize, hvis]
        rw [hnext]
        refine ih fuel _ (by omega) (Nat.mod_lt _ (by omega)) ?_
        rwa [Nat.mod_add_mod, Nat.add_assoc, Nat.add_comm 1 k]
      · refine ⟨lst, ?_, hlst, by simpa using hvis⟩
        simp [probe, hsize, hvis]

/-- Probing from any place finds a free one, if there is one. -/
theorem probe_yields_of_free {n : ℕ} {vis : ℕ → Bool} (hn : n ≤ tableSize) {lst p : ℕ}
    (hlst : lst < n) (hp : p < n) (hfree : vis p = false) :
    Yields (probe n vis n lst) fun q => q < n ∧ vis q = false := by
  have hdist : (lst + (p + n - lst) % n) % n = p := by
    rw [Nat.add_mod_mod, Nat.add_sub_of_le (by omega), Nat.add_mod_right, Nat.mod_eq_of_lt hp]
  exact probe_yields hn ((p + n - lst) % n) n lst (Nat.mod_lt _ (by omega)) hlst (by rwa [hdist])

/-! ## The drawn places -/

/-- A place that is free is taken at once. -/
theorem probe_of_free {n : ℕ} {vis : ℕ → Bool} (hn : n ≤ tableSize) {lst : ℕ} (hlst : lst < n)
    (hfree : vis lst = false) : probe n vis n lst = some lst := by
  obtain ⟨fuel, rfl⟩ := Nat.exists_eq_succ_of_ne_zero (Nat.ne_of_gt (Nat.zero_lt_of_lt hlst))
  simp [probe, hfree, Nat.lt_of_lt_of_le hlst hn]

/-- Where turn `i` starts to probe: behind the last place drawn, by the result of `rand()`. -/
def landing (rand : ℕ → ℕ) (calls n : ℕ) (tmp : ℕ → ℕ) (i : ℕ) : ℕ :=
  ((if i = 0 then 0 else tmp (i - 1)) + rand (calls + i) % n) % n

theorem landing_congr {rand : ℕ → ℕ} {calls n i : ℕ} {tmp tmp' : ℕ → ℕ}
    (h : ∀ j < i, tmp' j = tmp j) : landing rand calls n tmp' i = landing rand calls n tmp i := by
  rcases Nat.eq_zero_or_pos i with rfl | hi
  · rfl
  · rw [landing, landing, h (i - 1) (by omega)]

/-- After `t` turns on the identity: the table holds distinct places, exactly the visited ones, and
a turn that lands on a free place has drawn it. -/
structure Deal.Drawn (rand : ℕ → ℕ) (calls n t : ℕ) (d : Deal) : Prop where
  lst_eq : d.lst = if t = 0 then 0 else d.tmp (t - 1)
  tmp_landing : ∀ i < t, (∀ j < i, d.tmp j ≠ landing rand calls n d.tmp i) →
    d.tmp i = landing rand calls n d.tmp i
  lst_lt : d.lst < n
  tmp_lt : ∀ i < t, d.tmp i < n
  inj : ∀ i < t, ∀ j < t, d.tmp i = d.tmp j → i = j
  vis_iff : ∀ p, d.vis p = true ↔ ∃ i < t, d.tmp i = p
  calls_eq : d.calls = calls + t

/-- A place is free as long as fewer than `n` places are drawn. -/
theorem Deal.Drawn.exists_free {rand : ℕ → ℕ} {calls n t : ℕ} {d : Deal}
    (h : d.Drawn rand calls n t) (ht : t < n) : ∃ p < n, d.vis p = false := by
  by_contra hall
  have hsub : List.range n ⊆ (List.range t).map d.tmp := by
    intro p hp
    rw [List.mem_range] at hp
    have hvis : d.vis p = true := by
      by_contra hfree
      exact hall ⟨p, hp, by simpa using hfree⟩
    obtain ⟨i, hi, hip⟩ := (h.vis_iff p).mp hvis
    exact List.mem_map.mpr ⟨i, List.mem_range.mpr hi, hip⟩
  have hlen := (List.subperm_of_subset List.nodup_range hsub).length_le
  rw [List.length_map, List.length_range, List.length_range] at hlen
  omega

/-- Two deals in step: `d` has copied the entries of `a` at the places that `e` has drawn. -/
structure Deal.Follows (a : ℕ → ℕ) (t : ℕ) (d e : Deal) : Prop where
  lst : d.lst = e.lst
  vis : d.vis = e.vis
  calls : d.calls = e.calls
  tmp : ∀ i < t, d.tmp i = a (e.tmp i)

/-- A free place is drawn. -/
theorem Deal.Drawn.take {rand : ℕ → ℕ} {calls n t q : ℕ} {d : Deal} (h : d.Drawn rand calls n t)
    (hq : q < n) (hfree : d.vis q = false)
    (hland : (∀ j < t, d.tmp j ≠ landing rand calls n d.tmp t) →
      q = landing rand calls n d.tmp t) :
    (d.take t q q).Drawn rand calls n (t + 1) := by
  -- the place taken is none of those taken before
  have hnew : ∀ i < t, d.tmp i ≠ q := by
    intro i hi hiq
    have hvis := (h.vis_iff q).mpr ⟨i, hi, hiq⟩
    rw [hfree] at hvis
    exact absurd hvis (by decide)
  have hlast : (d.take t q q).tmp t = q := if_pos rfl
  have hold : ∀ i < t, (d.take t q q).tmp i = d.tmp i := fun i hi => if_neg (by omega)
  -- each part says something of the old draws and of the new one
  have hcase : ∀ i < t + 1, i < t ∨ i = t := fun i hi => by omega
  refine ⟨?_, fun i hi hland' => ?_, hq, fun i hi => ?_, fun i hi j hj hij => ?_, fun x => ?_, ?_⟩
  · rw [if_neg (Nat.succ_ne_zero t), Nat.add_sub_cancel, hlast]
    rfl
  · have hcongr : landing rand calls n (d.take t q q).tmp i = landing rand calls n d.tmp i :=
      landing_congr fun j hj => hold j (by omega)
    rw [hcongr] at hland' ⊢
    rcases hcase i hi with hit | rfl
    · rw [hold i hit]
      exact h.tmp_landing i hit fun j hj => by rw [← hold j (by omega)]; exact hland' j hj
    · rw [hlast]
      exact hland fun j hj => by rw [← hold j hj]; exact hland' j hj
  · rcases hcase i hi with hit | rfl
    · exact hold i hit ▸ h.tmp_lt i hit
    · exact hlast.symm ▸ hq
  · rcases hcase i hi with hit | rfl
    · rcases hcase j hj with hjt | rfl
      · rw [hold i hit, hold j hjt] at hij
        exact h.inj i hit j hjt hij
      · rw [hold i hit, hlast] at hij
        exact absurd hij (hnew i hit)
    · rcases hcase j hj with hjt | rfl
      · rw [hlast, hold j hjt] at hij
        exact absurd hij.symm (hnew j hjt)
      · rfl
  · by_cases hxq : x = q
    · refine iff_of_true (if_pos hxq) ⟨t, by omega, ?_⟩
      rw [hlast, hxq]
    · have hvis : (d.take t q q).vis x = d.vis x := if_neg hxq
      rw [hvis, h.vis_iff]
      constructor
      · rintro ⟨i, hi, hix⟩
        exact ⟨i, by omega, (hold i hi).trans hix⟩
      · rintro ⟨i, hi, hix⟩
        rcases hcase i hi with hit | rfl
        · exact ⟨i, hit, (hold i hit).symm.trans hix⟩
        · exact absurd (hix.symm.trans hlast) hxq
  · show d.calls + 1 = calls + (t + 1)
    rw [h.calls_eq, Nat.add_assoc]

/-- The same place is drawn in both deals. -/
theorem Deal.Follows.take {a : ℕ → ℕ} {t : ℕ} {d e : Deal} (h : d.Follows a t e) (q : ℕ) :
    (d.take t q (a q)).Follows a (t + 1) (e.take t q q) := by
  refine ⟨rfl, ?_, ?_, fun i hi => ?_⟩
  · simp only [Deal.take, h.vis]
  · simp only [Deal.take, h.calls]
  · by_cases hit : i = t
    · simp [Deal.take, hit]
    · simpa [Deal.take, hit] using h.tmp i (by omega)

/-- **One turn draws one more place**, the same one for every array. -/
theorem shuffleStep_yields (rand : ℕ → ℕ) {n calls t : ℕ} (hn : n ≤ tableSize) (ht : t < n)
    (a : ℕ → ℕ) {d e : Deal} (he : e.Drawn rand calls n t) (hd : d.Follows a t e) :
    ∃ q, shuffleStep rand n a t d = some (d.take t q (a q)) ∧
      shuffleStep rand n id t e = some (e.take t q q) ∧
      (e.take t q q).Drawn rand calls n (t + 1) := by
  obtain ⟨p, hp, hfree⟩ := he.exists_free ht
  obtain ⟨q, hq, hqn, hqfree⟩ := probe_yields_of_free hn
    (Nat.mod_lt (e.lst + rand e.calls % n) (by omega)) hp hfree
  have hsize : t < tableSize := Nat.lt_of_lt_of_le ht hn
  have hstart : (e.lst + rand e.calls % n) % n = landing rand calls n e.tmp t := by
    rw [he.lst_eq, he.calls_eq, landing]
  have hland : (∀ j < t, e.tmp j ≠ landing rand calls n e.tmp t) →
      q = landing rand calls n e.tmp t := by
    intro hnew
    have hnone : e.vis (landing rand calls n e.tmp t) = false := by
      by_contra hvis
      obtain ⟨j, hj, hjq⟩ := (he.vis_iff _).mp (by simpa using hvis)
      exact hnew j hj hjq
    have hprobe : probe n e.vis n (landing rand calls n e.tmp t) =
        some (landing rand calls n e.tmp t) := probe_of_free hn (Nat.mod_lt _ (by omega)) hnone
    rw [hstart, hprobe, Option.some.injEq] at hq
    exact hq.symm
  refine ⟨q, ?_, ?_, he.take hqn hqfree hland⟩
  · simp only [shuffleStep, hd.lst, hd.vis, hd.calls, hq, hsize, if_true, Option.bind_eq_bind,
      Option.bind_some]
  · simp only [shuffleStep, hq, hsize, if_true, Option.bind_eq_bind, Option.bind_some, id_eq]

/-- The first loop of a shuffle, in step with the one on the identity. -/
theorem shuffle_loop (rand : ℕ → ℕ) {n : ℕ} (h₁ : 1 ≤ n) (hn : n ≤ tableSize) (calls : ℕ)
    (a : ℕ → ℕ) :
    ∃ d e, forLoop 0 n (shuffleStep rand n a) (Deal.start calls) = some d ∧
      forLoop 0 n (shuffleStep rand n id) (Deal.start calls) = some e ∧
      e.Drawn rand calls n n ∧ d.Follows a n e := by
  -- the shuffle of `a` follows that of the places, draw by draw
  have hloop := forLoop_yields (f := shuffleStep rand n a)
    (I := fun t d => ∃ e, forLoop 0 t (shuffleStep rand n id) (Deal.start calls) = some e ∧
      e.Drawn rand calls n t ∧ d.Follows a t e) (s := Deal.start calls) (Nat.zero_le n) ?_ ?_
  · obtain ⟨d, hd, e, he, hdrawn, hfol⟩ := hloop
    exact ⟨d, e, hd, he, hdrawn, hfol⟩
  · refine ⟨Deal.start calls, forLoop_self _ _ _, ⟨rfl, ?_, h₁, ?_, ?_, ?_, rfl⟩,
      ⟨rfl, rfl, rfl, ?_⟩⟩
    · exact fun i hi => absurd hi (Nat.not_lt_zero i)
    · exact fun i hi => absurd hi (Nat.not_lt_zero i)
    · exact fun i hi => absurd hi (Nat.not_lt_zero i)
    · simp [Deal.start]
    · exact fun i hi => absurd hi (Nat.not_lt_zero i)
  · rintro t d - ht ⟨e, he, hdrawn, hfol⟩
    obtain ⟨q, hd', he', hdrawn'⟩ := shuffleStep_yields rand hn ht a hdrawn hfol
    refine ⟨_, hd', e.take t q q, ?_, hdrawn', hfol.take q⟩
    rw [forLoop_succ (Nat.zero_le t), he]
    exact he'

/-- **The place drawn for each entry** of an array of `n` entries. -/
def place (rand : ℕ → ℕ) (calls n : ℕ) : ℕ → ℕ :=
  match shuffle rand calls n id with
  | some (a, _) => a
  | none => id

/-- **A shuffle rearranges its array by the drawn places**, and it makes one call of `rand()` for
each entry. -/
theorem shuffle_eq (rand : ℕ → ℕ) {n : ℕ} (h₁ : 1 ≤ n) (hn : n ≤ tableSize) (calls : ℕ)
    (a : ℕ → ℕ) :
    shuffle rand calls n a = some (fun i => a (place rand calls n i), calls + n) := by
  obtain ⟨d, e, hd, he, hdrawn, hfol⟩ := shuffle_loop rand h₁ hn calls a
  have hplace : place rand calls n = fun i => if i < n then e.tmp i else i := by
    simp only [place, shuffle, he, Option.bind_eq_bind, Option.bind_some, id_eq]
  simp only [shuffle, hd, Option.bind_eq_bind, Option.bind_some, hplace, hfol.calls,
    hdrawn.calls_eq]
  congr 2
  funext i
  by_cases hi : i < n
  · rw [if_pos hi, if_pos hi, hfol.tmp i hi]
  · rw [if_neg hi, if_neg hi]

/-- The drawn places, entry by entry. -/
theorem exists_place_eq (rand : ℕ → ℕ) {n : ℕ} (h₁ : 1 ≤ n) (hn : n ≤ tableSize) (calls : ℕ) :
    ∃ e : Deal, e.Drawn rand calls n n ∧ (∀ i < n, place rand calls n i = e.tmp i) ∧
      ∀ i, n ≤ i → place rand calls n i = i := by
  obtain ⟨d, e, -, he, hdrawn, -⟩ := shuffle_loop rand h₁ hn calls id
  have hplace : place rand calls n = fun i => if i < n then e.tmp i else i := by
    simp only [place, shuffle, he, Option.bind_eq_bind, Option.bind_some, id_eq]
  rw [hplace]
  exact ⟨e, hdrawn, fun i hi => if_pos hi, fun i hi => if_neg (by omega)⟩

theorem place_lt (rand : ℕ → ℕ) {n : ℕ} (h₁ : 1 ≤ n) (hn : n ≤ tableSize) (calls : ℕ) {i : ℕ}
    (hi : i < n) : place rand calls n i < n := by
  obtain ⟨e, he, hplace, -⟩ := exists_place_eq rand h₁ hn calls
  exact hplace i hi ▸ he.tmp_lt i hi

/-- Entries behind the array stay in their places. -/
theorem place_of_le (rand : ℕ → ℕ) {n : ℕ} (h₁ : 1 ≤ n) (hn : n ≤ tableSize) (calls : ℕ) {i : ℕ}
    (hi : n ≤ i) : place rand calls n i = i := by
  obtain ⟨e, -, -, hplace⟩ := exists_place_eq rand h₁ hn calls
  exact hplace i hi

/-- A turn that lands on a free place draws it. -/
theorem place_eq_landing (rand : ℕ → ℕ) {n : ℕ} (h₁ : 1 ≤ n) (hn : n ≤ tableSize) (calls : ℕ)
    {i : ℕ} (hi : i < n)
    (hfree : ∀ j < i, place rand calls n j ≠ landing rand calls n (place rand calls n) i) :
    place rand calls n i = landing rand calls n (place rand calls n) i := by
  obtain ⟨e, he, hplace, -⟩ := exists_place_eq rand h₁ hn calls
  have hcongr : landing rand calls n (place rand calls n) i = landing rand calls n e.tmp i :=
    landing_congr fun j hj => hplace j (by omega)
  rw [hcongr] at hfree ⊢
  rw [hplace i hi]
  exact he.tmp_landing i hi fun j hj => by rw [← hplace j (by omega)]; exact hfree j hj

/-- The first place drawn is the first result of `rand()`. -/
theorem place_zero (rand : ℕ → ℕ) {n : ℕ} (h₁ : 1 ≤ n) (hn : n ≤ tableSize) (calls : ℕ) :
    place rand calls n 0 = rand calls % n := by
  rw [place_eq_landing rand h₁ hn calls h₁ fun j hj => absurd hj (Nat.not_lt_zero j), landing,
    if_pos rfl, Nat.zero_add, Nat.mod_mod, Nat.add_zero]

/-- **No place is drawn twice.** -/
theorem place_injective (rand : ℕ → ℕ) {n : ℕ} (h₁ : 1 ≤ n) (hn : n ≤ tableSize) (calls : ℕ) :
    Function.Injective (place rand calls n) := by
  obtain ⟨e, he, hplace, hbehind⟩ := exists_place_eq rand h₁ hn calls
  intro i j hij
  rcases Nat.lt_or_ge i n with hi | hi
  · rcases Nat.lt_or_ge j n with hj | hj
    · rw [hplace i hi, hplace j hj] at hij
      exact he.inj i hi j hj hij
    · have hlt := place_lt rand h₁ hn calls hi
      rw [hij, hbehind j hj] at hlt
      omega
  · rcases Nat.lt_or_ge j n with hj | hj
    · have hlt := place_lt rand h₁ hn calls hj
      rw [← hij, hbehind i hi] at hlt
      omega
    · rwa [hbehind i hi, hbehind j hj] at hij

/-- **The places drawn are a permutation** of those of the array. -/
theorem place_perm (rand : ℕ → ℕ) {n : ℕ} (h₁ : 1 ≤ n) (hn : n ≤ tableSize) (calls : ℕ) :
    ((List.range n).map (place rand calls n)).Perm (List.range n) := by
  have hnodup : ((List.range n).map (place rand calls n)).Nodup :=
    List.nodup_range.map (place_injective rand h₁ hn calls)
  have hsub : (List.range n).map (place rand calls n) ⊆ List.range n := by
    intro x hx
    obtain ⟨i, hi, rfl⟩ := List.mem_map.mp hx
    exact List.mem_range.mpr (place_lt rand h₁ hn calls (List.mem_range.mp hi))
  exact (List.subperm_of_subset hnodup hsub).perm_of_length_le (by rw [List.length_map])

/-- Every place of the array is drawn. -/
theorem exists_place (rand : ℕ → ℕ) {n : ℕ} (h₁ : 1 ≤ n) (hn : n ≤ tableSize) (calls : ℕ) {p : ℕ}
    (hp : p < n) : ∃ i < n, place rand calls n i = p := by
  have hperm := place_perm rand h₁ hn calls
  obtain ⟨i, hi, hip⟩ := List.mem_map.mp (hperm.mem_iff.mpr (List.mem_range.mpr hp))
  exact ⟨i, List.mem_range.mp hi, hip⟩

/-! ## Permutations -/

/-- **A shuffle that succeeds**: it ends without leaving its local tables, permutes the first `n`
entries, and leaves the others. -/
def Permutes (rand : ℕ → ℕ) (calls n : ℕ) (a : ℕ → ℕ) : Prop :=
  ∃ b, shuffle rand calls n a = some (b, calls + n) ∧
    ((List.range n).map b).Perm ((List.range n).map a) ∧ ∀ i, n ≤ i → b i = a i

/-- The entry of `tmp` that a turn writes is one of the table. -/
theorem lt_of_shuffleStep {rand : ℕ → ℕ} {n t : ℕ} {a : ℕ → ℕ} {d d' : Deal}
    (h : shuffleStep rand n a t d = some d') : t < tableSize := by
  unfold shuffleStep at h
  obtain ⟨lst, -, h⟩ := Option.bind_eq_some_iff.mp h
  by_contra hout
  rw [if_neg hout] at h
  exact absurd h (by simp)

/-- **A shuffle that ends has no more entries than its tables**, by the last turn. -/
theorem le_of_shuffle {rand : ℕ → ℕ} {calls n : ℕ} {a : ℕ → ℕ} {r : (ℕ → ℕ) × ℕ}
    (h : shuffle rand calls n a = some r) : n ≤ tableSize := by
  obtain ⟨d, hd, -⟩ := Option.bind_eq_some_iff.mp h
  exact forLoop_invariant (I := fun t _ => t ≤ tableSize) (Nat.zero_le n) (Nat.zero_le _)
    (fun t _ _ _ _ _ hstep => lt_of_shuffleStep hstep) hd

/-- **When a shuffle permutes its array**, for every array and all results of `rand()`: when the
array has no more entries than the local tables. -/
theorem shuffle_permutes_iff (rand : ℕ → ℕ) (calls n : ℕ) (a : ℕ → ℕ) :
    Permutes rand calls n a ↔ n ≤ 13 := by
  refine ⟨fun ⟨b, hb, _⟩ => le_of_shuffle hb, fun hn => ?_⟩
  rcases Nat.eq_zero_or_pos n with rfl | h₁
  · exact ⟨a, rfl, .refl _, fun _ _ => rfl⟩
  · refine ⟨_, shuffle_eq rand h₁ hn calls a, ?_, fun i hi => ?_⟩
    · have hperm := (place_perm rand h₁ hn calls).map a
      rwa [List.map_map] at hperm
    · rw [place_of_le rand h₁ hn calls hi]

/-- `tot_ant`, the number of starting points that `ant` shuffles for `m` ants and the `n` points
from `tim` on. -/
def totAnt (m n tim : ℕ) : ℕ := (if m % n = 0 then m / n else m / n + 1) * (n - tim)

/-- **The numbers of entries that the planner shuffles**: 13 for a tour, and as many as there are
starting points. -/
def Shuffled (c : ℕ) : Prop :=
  c = 13 ∨ ∃ m n tim, m ≤ 52 ∧ n ≤ 30 ∧ tim < n ∧ c = totAnt m n tim

/-- Fifty ants on ten points: the fifty starting points do not fit the local tables. -/
theorem fiftyAnts_unshuffled :
    ¬ ∀ c, Shuffled c → ∀ (rand : ℕ → ℕ) (calls : ℕ) (a : ℕ → ℕ), Permutes rand calls c a := by
  intro h
  obtain ⟨b, hb, -⟩ := h 50 (Or.inr ⟨50, 10, 0, by decide, by decide, by decide, by decide⟩)
    (fun k => k) 0 id
  exact absurd (le_of_shuffle hb) (by decide)

end HandlingRobot
