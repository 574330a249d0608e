/-
  File:      Yuios/Fs/Placed.lean
  Subject:   WHERE THE INODES IN MEMORY ARE: each is in the list of its device, once, and its
             descriptor lies where its number says.
-/
import Yuios.Fs.Lookup

namespace Yuios

open Lib Prog Code

/-- The lists of the super blocks hold used slots that are no pipes, each once. -/
structure Listed (T : Tables) : Prop where
  listed : ∀ i, ∀ x ∈ (T.superTable i).inodeList,
    (T.inodeTable x).Live ∧ (T.inodeTable x).pipe = false
  nodup : ∀ i, (T.superTable i).inodeList.Nodup
  apart : ∀ i j x, x ∈ (T.superTable i).inodeList → x ∈ (T.superTable j).inodeList → i = j

/-- The tables with slot `x` taken for inode `nr` and in the list of super block `i`. -/
def Tables.claimed (T : Tables) (i x : Nat) (ino : Inode) : Tables :=
  (T.setInode x ino).setSuper i
    { T.superTable i with inodeList := x :: (T.superTable i).inodeList }

section Listed

variable {T : Tables} {x i : Nat} {ino : Inode}

theorem Booked.lists (h : Booked T) : Listed T := ⟨h.listed, h.nodup, h.apart⟩

/-- A list without a slot that has left it. -/
theorem Listed.mem_erase (h : Listed T) (hi : x ∈ (T.superTable i).inodeList) (ino : Inode)
    (j z : Nat) : z ∈ (((T.setInode x ino).setSuper i { T.superTable i with
      inodeList := (T.superTable i).inodeList.erase x }).superTable j).inodeList ↔
        z ≠ x ∧ z ∈ (T.superTable j).inodeList := by
  by_cases e : j = i
  · simp only [Tables.setSuper, e, Function.update_self]
    exact (h.nodup i).mem_erase_iff
  · simp only [Tables.setSuper, Tables.setInode, Function.update_of_ne e]
    exact ⟨fun hz => ⟨fun e' => e (h.apart j i x (e' ▸ hz) hi), hz⟩, And.right⟩

/-- The lists with a slot that has come into one. -/
theorem Tables.mem_claimed (j z : Nat) : z ∈ ((T.claimed i x ino).superTable j).inodeList ↔
    (z = x ∧ j = i) ∨ z ∈ (T.superTable j).inodeList := by
  by_cases e : j = i
  · simp [Tables.claimed, Tables.setSuper, e]
  · simp [Tables.claimed, Tables.setSuper, Tables.setInode, e]

/-- A slot may change that is in no list, or stays used and no pipe. -/
theorem Listed.setInode (h : Listed T)
    (hx : (∀ i, x ∉ (T.superTable i).inodeList) ∨ ino.Live ∧ ino.pipe = false) :
    Listed (T.setInode x ino) := by
  refine ⟨fun j z hz => ?_, h.nodup, h.apart⟩
  by_cases e : z = x
  · have hz : z ∈ (T.superTable j).inodeList := hz
    obtain hx | hx := hx
    · exact absurd (e ▸ hz) (hx j)
    · simpa [Tables.setInode, e] using hx
  · simpa [Tables.setInode, e] using h.listed j z hz

theorem Listed.outside (h : Listed T) (hx : ∀ i, x ∉ (T.superTable i).inodeList) :
    Listed (T.setInode x ino) := h.setInode (.inl hx)

theorem Listed.setCount (h : Listed T) (n : Nat) :
    Listed (T.setInode x { T.inodeTable x with count := n }) := by
  by_cases hx : ∀ i, x ∉ (T.superTable i).inodeList
  · exact h.outside hx
  · obtain ⟨i, hi⟩ := not_forall.mp hx
    exact h.setInode (.inr (h.listed i x (not_not.mp hi)))

theorem Listed.free (h : Listed T) (hi : x ∈ (T.superTable i).inodeList) (ino : Inode) :
    Listed ((T.setInode x ino).setSuper i
      { T.superTable i with inodeList := (T.superTable i).inodeList.erase x }) := by
  have hmem := h.mem_erase hi ino
  refine ⟨fun j z hz => ?_, fun j => ?_, fun j k z hj hk => ?_⟩
  · obtain ⟨hne, hz⟩ := (hmem j z).mp hz
    simpa [Tables.setSuper, Tables.setInode, hne] using h.listed j z hz
  · by_cases e : j = i
    · simpa [Tables.setSuper, e] using (h.nodup i).erase x
    · simpa [Tables.setSuper, Tables.setInode, e] using h.nodup j
  · exact h.apart j k z ((hmem j z).mp hj).2 ((hmem k z).mp hk).2

theorem Listed.claim (h : Listed T) (hx : ¬ (T.inodeTable x).Live) (hdev : ino.dev ≠ devEOF)
    (hp : ino.pipe = false) : Listed (T.claimed i x ino) := by
  have hne : ∀ j, x ∉ (T.superTable j).inodeList := fun j hj => hx (h.listed j x hj).1
  refine ⟨fun j z hz => ?_, fun j => ?_, fun j k z hj hk => ?_⟩
  · by_cases e : z = x
    · simpa [Tables.claimed, Tables.setSuper, Tables.setInode, e] using ⟨hdev, hp⟩
    · have hz := (Tables.mem_claimed j z).mp hz
      simpa [Tables.claimed, Tables.setSuper, Tables.setInode, e] using
        h.listed j z (hz.resolve_left fun hz => e hz.1)
  · by_cases e : j = i
    · simpa [Tables.claimed, Tables.setSuper, e] using ⟨hne i, h.nodup i⟩
    · simpa [Tables.claimed, Tables.setSuper, Tables.setInode, e] using h.nodup j
  · obtain ⟨ez, ej⟩ | hj := (Tables.mem_claimed j z).mp hj
    · obtain ⟨-, ek⟩ | hk := (Tables.mem_claimed k z).mp hk
      · rw [ej, ek]
      · exact absurd (ez ▸ hk) (hne k)
    · obtain ⟨ez, -⟩ | hk := (Tables.mem_claimed k z).mp hk
      · exact absurd (ez ▸ hj) (hne j)
      · exact h.apart j k z hj hk

end Listed

/-- **The inodes in memory are in their places.** -/
structure Placed (T : Tables) : Prop where
  home : ∀ i, ∀ x ∈ (T.superTable i).inodeList, T.getSuper (T.inodeTable x).dev = some i
  onList : ∀ x, (T.inodeTable x).Live → (T.inodeTable x).pipe = false →
    ∃ i, x ∈ (T.superTable i).inodeList
  distinct : ∀ i, ∀ x ∈ (T.superTable i).inodeList, ∀ y ∈ (T.superTable i).inodeList,
    (T.inodeTable x).nr = (T.inodeTable y).nr → x = y
  filled : ∀ i, ∀ x ∈ (T.superTable i).inodeList,
    (T.inodeTable x).buf =
      ⟨(T.inodeTable x).dev, inodeBlock (T.superTable i) (T.inodeTable x).nr⟩ ∧
    (T.inodeTable x).desc = 32 * (((T.inodeTable x).nr - 1) % BLOCK_INODES)

section Placed

variable {T : Tables} {x i : Nat}

theorem getSuper_congr {T' : Tables} (h : ∀ i, (T'.superTable i).dev = (T.superTable i).dev)
    (dev : Int) : T'.getSuper dev = T.getSuper dev := by
  unfold Tables.getSuper
  simp only [h]

/-- A super block that neither had nor gets the device does not matter. -/
theorem getSuper_setSuper {sb : SuperBlock} {dev : Int} (h : (T.superTable i).dev ≠ dev)
    (hsb : sb.dev ≠ dev) : (T.setSuper i sb).getSuper dev = T.getSuper dev := by
  unfold Tables.getSuper
  congr 1
  funext j
  by_cases e : j = i
  · simp [Tables.setSuper, e, h, hsb]
  · simp [Tables.setSuper, e]

/-- The places do not depend on the counts, and not on what is mounted. -/
theorem Placed.setRefs (h : Placed T) (n : Nat) (m : Int) :
    Placed (T.setInode x { T.inodeTable x with count := n, mount := m }) := by
  have hkeep : ∀ y, ∃ n' m', (T.setInode x { T.inodeTable x with
      count := n, mount := m }).inodeTable y = { T.inodeTable y with count := n', mount := m' } := by
    intro y
    by_cases e : y = x
    · exact ⟨n, m, by simp [Tables.setInode, e]⟩
    · exact ⟨(T.inodeTable y).count, (T.inodeTable y).mount, by simp [Tables.setInode, e]⟩
  have hsup : ∀ dev, (T.setInode x { T.inodeTable x with count := n, mount := m }).getSuper dev =
      T.getSuper dev := fun dev => getSuper_congr (fun _ => rfl) dev
  refine ⟨fun i y hy => ?_, fun y hl hp => ?_, fun i y hy z hz e => ?_, fun i y hy => ?_⟩
  · obtain ⟨n', m', hn⟩ := hkeep y
    rw [hn, hsup]
    exact h.home i y hy
  · obtain ⟨n', m', hn⟩ := hkeep y
    rw [hn] at hl hp
    exact h.onList y hl hp
  · obtain ⟨n₁, m₁, hn₁⟩ := hkeep y
    obtain ⟨n₂, m₂, hn₂⟩ := hkeep z
    rw [hn₁, hn₂] at e
    exact h.distinct i y hy z hz e
  · obtain ⟨n', m', hn⟩ := hkeep y
    rw [hn]
    exact h.filled i y hy

theorem Placed.setCount (h : Placed T) (n : Nat) :
    Placed (T.setInode x { T.inodeTable x with count := n }) := h.setRefs n _

/-- Nor do they depend on super blocks without inodes, or on where a super block is mounted. -/
theorem Placed.supers {T' : Tables} (h : Placed T) (hi : T'.inodeTable = T.inodeTable)
    (hl : ∀ j, (T'.superTable j).inodeList = (T.superTable j).inodeList)
    (hs : ∀ j, (T.superTable j).inodeList ≠ [] →
      inodeBlock (T'.superTable j) = inodeBlock (T.superTable j) ∧
        T'.getSuper (T.superTable j).dev = T.getSuper (T.superTable j).dev) : Placed T' := by
  refine ⟨fun j y hy => ?_, fun y hlive hp => ?_, fun j y hy z hz e => ?_, fun j y hy => ?_⟩
  · rw [hl] at hy
    have hj := h.home j y hy
    rw [hi, ← hj, ← getSuper_dev hj]
    exact (hs j (List.ne_nil_of_mem hy)).2
  · rw [hi] at hlive hp
    obtain ⟨j, hj⟩ := h.onList y hlive hp
    exact ⟨j, by rw [hl]; exact hj⟩
  · rw [hl] at hy hz
    rw [hi] at e
    exact h.distinct j y hy z hz e
  · rw [hl] at hy
    rw [hi, (hs j (List.ne_nil_of_mem hy)).1]
    exact h.filled j y hy

/-- A slot that leaves its list and is free again. -/
theorem Placed.free (h : Placed T) (hb : Listed T) (hi : x ∈ (T.superTable i).inodeList)
    {ino : Inode} (hino : ino.dev = devEOF) :
    Placed ((T.setInode x ino).setSuper i
      { T.superTable i with inodeList := (T.superTable i).inodeList.erase x }) := by
  have hmem := hb.mem_erase hi ino
  generalize hT' : Tables.setSuper _ _ _ = T' at hmem ⊢
  have hother : ∀ y, y ≠ x → T'.inodeTable y = T.inodeTable y := by
    intro y hy
    simp [← hT', Tables.setSuper, Tables.setInode, hy]
  have hself : (T'.inodeTable x).dev = devEOF := by
    simp [← hT', Tables.setSuper, Tables.setInode, hino]
  have hlist : ∀ j, T'.superTable j =
      { T.superTable j with inodeList := (T'.superTable j).inodeList } := by
    intro j
    by_cases e : j = i
    · simp [← hT', Tables.setSuper, e]
    · simp [← hT', Tables.setSuper, Tables.setInode, e]
  have hsup : ∀ dev, T'.getSuper dev = T.getSuper dev :=
    getSuper_congr fun j => by rw [hlist]
  refine ⟨fun j y hy => ?_, fun y hl hp => ?_, fun j y hy z hz e => ?_, fun j y hy => ?_⟩
  · obtain ⟨hne, hy⟩ := (hmem j y).mp hy
    rw [hother y hne, hsup]
    exact h.home j y hy
  · have hne : y ≠ x := fun e => hl (e ▸ hself)
    rw [hother y hne] at hl hp
    obtain ⟨j, hj⟩ := h.onList y hl hp
    exact ⟨j, (hmem j y).mpr ⟨hne, hj⟩⟩
  · obtain ⟨hy', hy⟩ := (hmem j y).mp hy
    obtain ⟨hz', hz⟩ := (hmem j z).mp hz
    rw [hother y hy', hother z hz'] at e
    exact h.distinct j y hy z hz e
  · obtain ⟨hne, hy⟩ := (hmem j y).mp hy
    rw [hother y hne, hlist]
    exact h.filled j y hy

/-- A free slot taken for an inode that was not in memory. -/
theorem Placed.claim (h : Placed T) (hb : Listed T) {ino : Inode}
    (hx : ¬ (T.inodeTable x).Live) (hi : T.getSuper ino.dev = some i)
    (hnr : ∀ y ∈ (T.superTable i).inodeList, (T.inodeTable y).nr ≠ ino.nr)
    (hbuf : ino.buf = ⟨ino.dev, inodeBlock (T.superTable i) ino.nr⟩)
    (hdesc : ino.desc = 32 * ((ino.nr - 1) % BLOCK_INODES)) : Placed (T.claimed i x ino) := by
  have hother : ∀ y, y ≠ x → (T.claimed i x ino).inodeTable y = T.inodeTable y := by
    intro y hy
    simp [Tables.claimed, Tables.setSuper, Tables.setInode, hy]
  have hself : (T.claimed i x ino).inodeTable x = ino := by
    simp [Tables.claimed, Tables.setSuper, Tables.setInode]
  have hlist : ∀ j, (T.claimed i x ino).superTable j =
      { T.superTable j with inodeList := ((T.claimed i x ino).superTable j).inodeList } := by
    intro j
    by_cases e : j = i
    · simp [Tables.claimed, Tables.setSuper, e]
    · simp [Tables.claimed, Tables.setSuper, Tables.setInode, e]
  have hne : ∀ j, ∀ y ∈ (T.superTable j).inodeList, y ≠ x :=
    fun j y hy e => hx (e ▸ (hb.listed j y hy).1)
  have hmem : ∀ j y, y ∈ ((T.claimed i x ino).superTable j).inodeList ↔
      (y = x ∧ j = i) ∨ y ∈ (T.superTable j).inodeList := Tables.mem_claimed
  have hsup : ∀ dev, (T.claimed i x ino).getSuper dev = T.getSuper dev :=
    getSuper_congr fun j => by rw [hlist]
  refine ⟨fun j y hy => ?_, fun y hl hp => ?_, fun j y hy z hz e => ?_, fun j y hy => ?_⟩
  · rw [hsup]
    obtain ⟨ey, ej⟩ | hy' := (hmem j y).mp hy
    · rw [ey, ej, hself]
      exact hi
    · rw [hother y (hne j y hy')]
      exact h.home j y hy'
  · by_cases e : y = x
    · exact ⟨i, (hmem i y).mpr (.inl ⟨e, rfl⟩)⟩
    · rw [hother y e] at hl hp
      obtain ⟨j, hj⟩ := h.onList y hl hp
      exact ⟨j, (hmem j y).mpr (.inr hj)⟩
  · obtain ⟨ey, ej⟩ | hy' := (hmem j y).mp hy
    · obtain ⟨ez, -⟩ | hz' := (hmem j z).mp hz
      · rw [ey, ez]
      · rw [ey, hself, hother z (hne j z hz')] at e
        exact absurd e.symm (hnr z (ej ▸ hz'))
    · obtain ⟨ez, ej⟩ | hz' := (hmem j z).mp hz
      · rw [ez, hself, hother y (hne j y hy')] at e
        exact absurd e (hnr y (ej ▸ hy'))
      · rw [hother y (hne j y hy'), hother z (hne j z hz')] at e
        exact h.distinct j y hy' z hz' e
  · rw [hlist]
    obtain ⟨ey, ej⟩ | hy' := (hmem j y).mp hy
    · rw [ey, ej, hself]
      exact ⟨hbuf, hdesc⟩
    · rw [hother y (hne j y hy')]
      exact h.filled j y hy'

/-- A slot that is in no list changes. -/
theorem Placed.outside (h : Placed T) (hx : ∀ i, x ∉ (T.superTable i).inodeList) {ino : Inode}
    (hp : ¬ ino.Live ∨ ino.pipe = true) : Placed (T.setInode x ino) := by
  have hother : ∀ i, ∀ y ∈ (T.superTable i).inodeList,
      (T.setInode x ino).inodeTable y = T.inodeTable y := by
    intro i y hy
    have e : y ≠ x := fun e => hx i (e ▸ hy)
    simp [Tables.setInode, e]
  refine ⟨fun j y hy => ?_, fun y hl hp' => ?_, fun j y hy z hz e => ?_, fun j y hy => ?_⟩
  · rw [hother j y hy]
    exact h.home j y hy
  · by_cases e : y = x
    · have hself : (T.setInode x ino).inodeTable y = ino := by simp [Tables.setInode, e]
      rw [hself] at hl hp'
      obtain hp | hp := hp
      · exact absurd hl hp
      · rw [hp] at hp'
        cases hp'
    · have hself : (T.setInode x ino).inodeTable y = T.inodeTable y := by simp [Tables.setInode, e]
      rw [hself] at hl hp'
      exact h.onList y hl hp'
  · rw [hother j y hy, hother j z hz] at e
    exact h.distinct j y hy z hz e
  · rw [hother j y hy]
    exact h.filled j y hy

end Placed

end Yuios
