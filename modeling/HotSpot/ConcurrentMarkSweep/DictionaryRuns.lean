import HotSpot.ConcurrentMarkSweep.DictionarySearch
import HotSpot.ConcurrentMarkSweep.InsertChunk
import HotSpot.ConcurrentMarkSweep.RemoveChunk

/-! # Runs of the dictionary

From a reset on, chunks are inserted, removed and requested in any order, and the memory outside
the dictionary and the statistics of its lists change.
-/

/-! ## Best fit

A request takes a chunk of the least size that is large enough. With adaptive free lists the
hints may lead to a larger one.
-/

namespace HotSpot.BinaryTreeDictionary

variable {d d' : BinaryTreeDictionary} {t : BinaryTree Nat} {rest : Nat → List Nat}
  {size fuel : Nat}

theorem firstAvailable_eq {a : Nat} {others : List Nat} (h : ListOf d a others) :
    ∃ c ∈ a :: others, d.firstAvailable a = some c := by
  obtain ⟨-, hnext⟩ := h.forward
  have hhead : d.next a = others.head? := hnext.start_eq
  cases others with
  | nil => exact ⟨a, List.mem_cons_self, by simp [firstAvailable, h.head, hhead]⟩
  | cons c others => exact ⟨c, by simp, by simp [firstAvailable, h.head, hhead]⟩

/-- The chunk `c` is removed, and no other. -/
structure Removed (d d' : BinaryTreeDictionary) (t : BinaryTree Nat) (rest : Nat → List Nat)
    (c : Nat) (t' : BinaryTree Nat) (rest' : Nat → List Nat) : Prop where
  represents : Represents d' t' rest'
  size : d'.size = d.size
  hintsUp : HintsUp d (inorder t) → HintsUp d' (inorder t')
  perm : (c :: chunks (inorder t') rest').Perm (chunks (inorder t) rest)

/-- The list that a chunk is taken from in place of that of `curTL`. -/
theorem candidateList_spec {adaptive : Bool} {curTL : Nat} (h : Represents d t rest)
    (hfuel : d.totalFreeBlocks ≤ fuel) (hhints : adaptive = true → HintsUp d (inorder t))
    (hcur : curTL ∈ inorder t) : ∃ a d1,
      d.candidateList adaptive curTL fuel = some (a, d1) ∧
      a ∈ inorder t ∧ (d.embeddedList curTL).size ≤ (d.embeddedList a).size ∧
      (adaptive = false → a = curTL) ∧ Represents d1 t rest ∧ d1.size = d.size ∧
      d1.totalFreeBlocks = d.totalFreeBlocks ∧
        (HintsUp d (inorder t) → HintsUp d1 (inorder t)) := by
  rw [candidateList]
  split
  next hadaptive =>
    obtain ⟨pre, post, hnodes⟩ := List.append_of_mem hcur
    have hlength := length_le_chunks (inorder t) rest
    rw [h.lists.length_chunks, hnodes, List.length_append, List.length_cons] at hlength
    obtain ⟨a, d1, hfollow, ha, hle, hd1⟩ := followHints_spec h hfuel (hhints hadaptive.1) hcur
      hnodes (Nat.le_refl _) (by omega : post.length < fuel)
    refine ⟨a, d1, hfollow, ha, hle, fun hoff => ?_, ?_⟩
    · rw [hoff] at hadaptive
      simp at hadaptive
    · rcases hd1 with rfl | ⟨hint, rfl, hhint⟩
      · exact ⟨h, rfl, rfl, id⟩
      · refine ⟨h.setHint curTL hint, rfl, rfl, fun hups x hx => ?_⟩
        by_cases hxcur : x = curTL
        · subst hxcur
          simpa [setHint, modifyList] using hhint
        · simpa [setHint, modifyList, hxcur] using hups x hx
  next =>
    exact ⟨curTL, d, rfl, hcur, Nat.le_refl _, fun _ => rfl, h, rfl, rfl, id⟩

/-- What a request gives. -/
theorem getChunkFromTree_spec {adaptive : Bool} (h : Represents d t rest)
    (hfuel : d.totalFreeBlocks ≤ fuel) (hhints : adaptive = true → HintsUp d (inorder t))
    (size : Nat) :
    (d.getChunkFromTree adaptive size fuel = some (none, d) ∧
      ∀ c ∈ chunks (inorder t) rest, d.size c < size) ∨
    ∃ c d', d.getChunkFromTree adaptive size fuel = some (some c, d') ∧
      c ∈ chunks (inorder t) rest ∧ size ≤ d.size c ∧
      (adaptive = false → ∀ x ∈ chunks (inorder t) rest, size ≤ d.size x → d.size c ≤ d.size x) ∧
      ∃ t' rest', Removed d d' t rest c t' rest' := by
  obtain ⟨cand, hcand, hnone, hsome⟩ := h.closestList hfuel size
  have hsizes : ∀ c ∈ chunks (inorder t) rest, ∃ a ∈ inorder t,
      d.size c = (d.embeddedList a).size := by
    intro c hc
    obtain ⟨a, ha, hca⟩ := mem_chunks.mp hc
    exact ⟨a, ha, (h.lists.listOf a ha).size c hca⟩
  simp only [getChunkFromTree, hcand, Option.bind_eq_bind, Option.bind_some]
  cases cand with
  | none =>
    refine .inl ⟨rfl, fun c hc => ?_⟩
    obtain ⟨a, ha, hsize⟩ := hsizes c hc
    rw [hsize]
    exact hnone rfl a ha
  | some b =>
    obtain ⟨hb, hle, hleast⟩ := hsome b rfl
    obtain ⟨a, d1, hchoose, ha, hba, hsame, hd1, hsize1, hblocks1, hups⟩ :=
      candidateList_spec h hfuel hhints hb
    obtain ⟨c, hc, hfirst⟩ := firstAvailable_eq (hd1.lists.listOf a ha)
    have hmem : c ∈ chunks (inorder t) rest := mem_chunks.mpr ⟨a, ha, hc⟩
    obtain ⟨d', t', rest', hremove, hrep, hsize', hups', hperm⟩ :=
      removeChunkFromTree_represents hd1 hmem (hblocks1 ▸ hfuel)
    have hcsize : d.size c = (d.embeddedList a).size := (h.lists.listOf a ha).size c hc
    refine .inr ⟨c, d', ?_, hmem, ?_, fun hoff x hx hxsize => ?_, t', rest', hrep,
      hsize'.trans hsize1, fun hhints => hups' (hups hhints), hperm⟩
    · simp only [hchoose, Option.bind_some, hfirst, hremove]
    · omega
    · obtain rfl := hsame hoff
      obtain ⟨y, hy, hysize⟩ := hsizes x hx
      rw [hcsize, hysize]
      exact hleast y hy (hysize ▸ hxsize)

/-- Every request ends. It fails exactly when no chunk is large enough, else it removes a chunk
that is, of the least size when the hints are not followed. -/
theorem getChunkFromTree_bestFit (adaptive : Bool) (size fuel : Nat) (h : Represents d t rest)
    (hhints : adaptive = true → HintsUp d (inorder t))
    (hfuel : d.totalFreeBlocks ≤ fuel) : ∃ ret d',
      d.getChunkFromTree adaptive size fuel = some (ret, d') ∧
      (ret = none ↔ ∀ c ∈ chunks (inorder t) rest, d.size c < size) ∧
      (ret = none → d' = d) ∧
      ∀ c, ret = some c → c ∈ chunks (inorder t) rest ∧ size ≤ d.size c ∧
        (adaptive = false →
          ∀ x ∈ chunks (inorder t) rest, size ≤ d.size x → d.size c ≤ d.size x) ∧
        ∃ t' rest', Represents d' t' rest' ∧ d'.size = d.size ∧
          (c :: chunks (inorder t') rest').Perm (chunks (inorder t) rest) := by
  rcases getChunkFromTree_spec h hfuel hhints size with
    ⟨hget, hnone⟩ | ⟨c, d', hget, hc, hsize, hleast, t', rest', hremoved⟩
  · exact ⟨none, d, hget, iff_of_true rfl hnone, fun _ => rfl, nofun⟩
  · refine ⟨some c, d', hget, iff_of_false nofun fun hless => ?_, nofun, fun x hx => ?_⟩
    · exact absurd (hless c hc) (Nat.not_lt.mpr hsize)
    · obtain rfl := Option.some.inj hx
      exact ⟨hc, hsize, hleast, t', rest', hremoved.represents, hremoved.size, hremoved.perm⟩

/-- The sizes 6, 10 and 20, the last with two chunks and a surplus, which the hint of the
second leads to. -/
def threeSizes : BinaryTreeDictionary where
  size
    | 64 => 10
    | 200 => 6
    | 300 | 400 => 20
    | _ => 0
  prev
    | 400 => some 300
    | _ => none
  next
    | 300 => some 400
    | _ => none
  list
    | 64 => some 64
    | 200 => some 200
    | 300 | 400 => some 300
    | _ => none
  embeddedList
    | 64 => ⟨some 64, some 64, 10, 1, 20, 0⟩
    | 200 => ⟨some 200, some 200, 6, 1, 0, 0⟩
    | 300 => ⟨some 300, some 400, 20, 2, 0, 1⟩
    | _ => ⟨none, none, 0, 0, 0, 0⟩
  links :=
    { root := some 64
      parent := fun
        | 200 | 300 => some 64
        | _ => none
      left := fun
        | 64 => some 200
        | _ => none
      right := fun
        | 64 => some 300
        | _ => none }
  totalSize := 56
  totalFreeBlocks := 4

def threeRest : Nat → List Nat
  | 300 => [400]
  | _ => []

theorem threeSizes_represents : Represents threeSizes
    (.node 64 (.node 200 .nil .nil) (.node 300 .nil .nil)) threeRest := by
  have hnodes : inorder (.node 64 (.node 200 .nil .nil) (.node 300 .nil .nil)) =
      [200, 64, 300] := rfl
  refine ⟨⟨⟨rfl, rfl, ⟨rfl, rfl, rfl, rfl⟩, ⟨rfl, rfl, rfl, rfl⟩⟩, by decide⟩,
    ⟨fun a ha => ?_, by decide, by decide, by decide, by decide⟩⟩
  rw [hnodes] at ha
  simp only [List.mem_cons, List.not_mem_nil, or_false] at ha
  rcases ha with rfl | rfl | rfl
  · exact ⟨rfl, rfl, rfl, ⟨rfl, rfl⟩, ⟨rfl, rfl⟩, by decide, by decide⟩
  · exact ⟨rfl, rfl, rfl, ⟨rfl, rfl⟩, ⟨rfl, rfl⟩, by decide, by decide⟩
  · exact ⟨rfl, rfl, rfl, ⟨rfl, rfl, rfl⟩, ⟨rfl, rfl, rfl⟩, by decide, by decide⟩

/-- A request for eight words is sent to the larger size by the hint, and without hints takes
the chunk of ten. -/
theorem getChunkFromTree_bestFit_threeSizes :
    (∃ d' t' rest', threeSizes.getChunkFromTree true 8 4 = some (some 400, d') ∧
      Represents d' t' rest') ∧
    ∃ d', threeSizes.getChunkFromTree false 8 4 = some (some 64, d') := by
  have hhints : HintsUp threeSizes
      (inorder (.node 64 (.node 200 .nil .nil) (.node 300 .nil .nil))) := by
    unfold HintsUp
    decide
  constructor
  · obtain ⟨ret, d', hget, -, -, hsome⟩ := getChunkFromTree_bestFit true 8 4
      threeSizes_represents (fun _ => hhints) (by decide)
    have hret : (threeSizes.getChunkFromTree true 8 4).map Prod.fst = some (some 400) := rfl
    rw [hget] at hret
    obtain rfl : ret = some 400 := Option.some.inj hret
    obtain ⟨-, -, -, t', rest', hrep, -⟩ := hsome 400 rfl
    exact ⟨d', t', rest', hget, hrep⟩
  · obtain ⟨ret, d', hget, hnone, -, hsome⟩ := getChunkFromTree_bestFit false 8 4
      threeSizes_represents nofun (by decide)
    cases ret with
    | none => exact absurd (hnone.mp rfl 64 (by decide)) (by decide)
    | some c =>
      obtain ⟨hc, hle, hleast, -⟩ := hsome c rfl
      have hsize := hleast rfl 64 (by decide) (by decide)
      have hchunks : chunks (inorder (.node 64 (.node 200 .nil .nil) (.node 300 .nil .nil)))
          threeRest = [200, 64, 300, 400] := by decide
      rw [hchunks] at hc
      simp only [List.mem_cons, List.not_mem_nil, or_false] at hc
      rcases hc with rfl | rfl | rfl | rfl
      · exact absurd hle (by decide)
      · exact ⟨d', hget⟩
      · exact absurd hsize (by decide)
      · exact absurd hsize (by decide)

variable {live : List Nat} {c fuel : Nat}

/-- Writes outside the chunks `live`, and of the statistics of the lists in them. -/
structure Outside (d d' : BinaryTreeDictionary) (live : List Nat) : Prop where
  root : d'.links.root = d.links.root
  totalSize : d'.totalSize = d.totalSize
  totalFreeBlocks : d'.totalFreeBlocks = d.totalFreeBlocks
  agree : ∀ c ∈ live, AgreeOn d d' c ∧ AgreeAt d.links d'.links c
  lists : ∀ c ∈ live, (d'.embeddedList c).head = (d.embeddedList c).head ∧
    (d'.embeddedList c).tail = (d.embeddedList c).tail ∧
    (d'.embeddedList c).size = (d.embeddedList c).size ∧
    (d'.embeddedList c).count = (d.embeddedList c).count
  hint : ∀ c ∈ live, (d'.embeddedList c).hint = (d.embeddedList c).hint ∨
    (d'.embeddedList c).hint = 0 ∨ (d'.embeddedList c).size < (d'.embeddedList c).hint

/-- The states that a run reaches, with the chunks inserted and not removed. -/
inductive Reached : BinaryTreeDictionary → List Nat → Prop
  | reset (d : BinaryTreeDictionary) : Reached d.reset []
  | resetTo (d : BinaryTreeDictionary) (start wordSize : Nat) :
      Reached (d.resetTo start wordSize) [start]
  | insert {d d' : BinaryTreeDictionary} {live : List Nat} {c fuel : Nat} (h : Reached d live)
      (hc : c ∉ live) (hfuel : d.totalFreeBlocks ≤ fuel)
      (hinsert : d.insertChunkInTree c fuel = some d') : Reached d' (c :: live)
  | remove {d d' : BinaryTreeDictionary} {live : List Nat} {c fuel : Nat} (h : Reached d live)
      (hc : c ∈ live) (hfuel : d.totalFreeBlocks ≤ fuel)
      (hremove : d.removeChunkFromTree c fuel = some d') : Reached d' (live.erase c)
  | get {d d' : BinaryTreeDictionary} {live : List Nat} {useAdaptiveFreeLists : Bool}
      {size fuel : Nat} {ret : Option Nat} (h : Reached d live) (hfuel : d.totalFreeBlocks ≤ fuel)
      (hget : d.getChunkFromTree useAdaptiveFreeLists size fuel = some (ret, d')) :
      Reached d' (ret.elim live live.erase)
  | outside {d d' : BinaryTreeDictionary} {live : List Nat} (h : Reached d live)
      (hwrite : Outside d d' live) : Reached d' live

/-- The chunks of the tree are the ones inserted and not removed. -/
def Holds (d : BinaryTreeDictionary) (live : List Nat) : Prop :=
  ∃ t rest, Represents d t rest ∧ HintsUp d (inorder t) ∧ (chunks (inorder t) rest).Perm live

theorem Holds.insert (h : Holds d live) (hc : c ∉ live) (hfuel : d.totalFreeBlocks ≤ fuel) :
    ∃ d', d.insertChunkInTree c fuel = some d' ∧ Holds d' (c :: live) := by
  obtain ⟨t, rest, hrep, hhints, hperm⟩ := h
  have hc' : c ∉ chunks (inorder t) rest := fun hmem => hc (hperm.mem_iff.mp hmem)
  obtain ⟨d', t', rest', hinsert, hrep', -, hhints', hperm'⟩ :=
    insertChunkInTree_represents hrep hc' hfuel
  exact ⟨d', hinsert, t', rest', hrep', hhints' hhints, hperm'.trans (hperm.cons c)⟩

theorem Holds.remove (h : Holds d live) (hc : c ∈ live) (hfuel : d.totalFreeBlocks ≤ fuel) :
    ∃ d', d.removeChunkFromTree c fuel = some d' ∧ Holds d' (live.erase c) := by
  obtain ⟨t, rest, hrep, hhints, hperm⟩ := h
  obtain ⟨d', t', rest', hremove, hrep', -, hhints', hperm'⟩ :=
    removeChunkFromTree_represents hrep (hperm.mem_iff.mpr hc) hfuel
  have herase := (hperm'.trans hperm).erase c
  rw [List.erase_cons_head] at herase
  exact ⟨d', hremove, t', rest', hrep', hhints' hhints, herase⟩

theorem Holds.get (h : Holds d live) (hfuel : d.totalFreeBlocks ≤ fuel)
    (useAdaptiveFreeLists : Bool) (size : Nat) : ∃ ret d',
      d.getChunkFromTree useAdaptiveFreeLists size fuel = some (ret, d') ∧
        Holds d' (ret.elim live live.erase) := by
  obtain ⟨t, rest, hrep, hhints, hperm⟩ := h
  rcases getChunkFromTree_spec hrep hfuel (fun _ => hhints) size with
    ⟨hget, -⟩ | ⟨c, d', hget, -, -, -, t', rest', hremoved⟩
  · exact ⟨none, d, hget, t, rest, hrep, hhints, hperm⟩
  · have herase := (hremoved.perm.trans hperm).erase c
    rw [List.erase_cons_head] at herase
    exact ⟨some c, d', hget, t', rest', hremoved.represents, hremoved.hintsUp hhints, herase⟩

theorem Holds.outside (h : Holds d live) (hwrite : Outside d d' live) : Holds d' live := by
  obtain ⟨t, rest, hrep, hhints, hperm⟩ := h
  have hnode : ∀ a ∈ inorder t, a ∈ live := fun a ha => hperm.mem_iff.mp (subset_chunks ha)
  refine ⟨t, rest,
    hrep.congr ?_ hwrite.totalSize hwrite.totalFreeBlocks ?_ ?_, fun a ha => ?_, hperm⟩
  · exact hrep.tree.congr hwrite.root fun a ha => (hwrite.agree a (hnode a ha)).2
  · exact fun c hc => (hwrite.agree c (hperm.mem_iff.mp hc)).1
  · exact fun a ha => hwrite.lists a (hnode a ha)
  · rcases hwrite.hint a (hnode a ha) with hsame | hup
    · rw [hsame, (hwrite.lists a (hnode a ha)).2.2.1]
      exact hhints a ha
    · exact hup

theorem Reached.holds (h : Reached d live) : Holds d live := by
  induction h with
  | reset d => exact ⟨.nil, fun _ => [], reset_represents d _, by simp [HintsUp], List.Perm.nil⟩
  | resetTo d start wordSize =>
    exact ⟨_, _, resetTo_represents d start wordSize, resetTo_hintsUp d start wordSize,
      List.Perm.refl _⟩
  | insert h hc hfuel hinsert ih =>
    obtain ⟨d', hinsert', hholds⟩ := ih.insert hc hfuel
    rw [hinsert] at hinsert'
    exact Option.some.inj hinsert' ▸ hholds
  | remove h hc hfuel hremove ih =>
    obtain ⟨d', hremove', hholds⟩ := ih.remove hc hfuel
    rw [hremove] at hremove'
    exact Option.some.inj hremove' ▸ hholds
  | get h hfuel hget ih =>
    obtain ⟨ret, d', hget', hholds⟩ := ih.get hfuel _ _
    rw [hget] at hget'
    obtain ⟨rfl, rfl⟩ := Prod.mk.inj (Option.some.inj hget')
    exact hholds
  | outside h hwrite ih => exact ih.outside hwrite

/-- In every state of a run the dictionary represents a search tree of the chunks inserted and not
removed, and every operation ends. -/
theorem reached_represents (h : Reached d live) :
    (∃ t rest, Represents d t rest ∧ (chunks (inorder t) rest).Perm live) ∧
      ∀ fuel, d.totalFreeBlocks ≤ fuel →
        (∀ c, c ∉ live → ∃ d', d.insertChunkInTree c fuel = some d') ∧
        (∀ c ∈ live, ∃ d', d.removeChunkFromTree c fuel = some d') ∧
        ∀ useAdaptiveFreeLists size, ∃ result,
          d.getChunkFromTree useAdaptiveFreeLists size fuel = some result := by
  have hholds := h.holds
  refine ⟨?_, fun fuel hfuel => ⟨fun c hc => ?_, fun c hc => ?_, fun adaptive size => ?_⟩⟩
  · obtain ⟨t, rest, hrep, -, hperm⟩ := hholds
    exact ⟨t, rest, hrep, hperm⟩
  · obtain ⟨d', hinsert, -⟩ := hholds.insert hc hfuel
    exact ⟨d', hinsert⟩
  · obtain ⟨d', hremove, -⟩ := hholds.remove hc hfuel
    exact ⟨d', hremove⟩
  · obtain ⟨ret, d', hget, -⟩ := hholds.get hfuel adaptive size
    exact ⟨_, hget⟩

/-- A node that moves: a second chunk of its size is inserted before its first is removed. -/
theorem reached_represents_relocated : ∃ d t rest, Reached d [128] ∧ Represents d t rest ∧
    (chunks (inorder t) rest).Perm [128] := by
  have hreset : Reached _ [64] := Reached.resetTo { threeSizes with size := fun _ => 10 } 64 10
  obtain ⟨-, hops⟩ := reached_represents hreset
  obtain ⟨d1, hinsert⟩ := (hops 1 (by decide)).1 128 (by decide)
  have htwo : Reached d1 [128, 64] := hreset.insert (by decide) (by decide) hinsert
  obtain ⟨-, hops⟩ := reached_represents htwo
  obtain ⟨d2, hremove⟩ := (hops d1.totalFreeBlocks (Nat.le_refl _)).2.1 64 (by decide)
  have hone : Reached d2 [128] := htwo.remove (by decide) (Nat.le_refl _) hremove
  obtain ⟨⟨t, rest, hrep, hperm⟩, -⟩ := reached_represents hone
  exact ⟨d2, t, rest, hone, hrep, hperm⟩

end HotSpot.BinaryTreeDictionary
