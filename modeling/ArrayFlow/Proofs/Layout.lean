import ArrayFlow.Proofs.Region

/-!
# The loops of structured code

Laying out a region keeps to the nesting of the loops, by induction on the region.

* `Lowering.Laid`    : edges go with the nesting of the loops, those laid out as a whole and those
  still open;
* `Laid.block`, `Laid.connect`, `Laid.openLoop`, `Laid.close` : what each step of a layout keeps;
* `Lowering.At`      : the layout has come to a block inside some loop;
* `Region.lower_laid` : from there, a region comes to a new block inside the same loop.
-/

namespace ArrayFlow

namespace Lowering

/-! ## edges and loops -/

/-- How an edge goes with the nesting of the loops; those of `opened` are not laid out as a
whole. -/
inductive Kind (owner : BlockId → Option BlockId) (opened : List BlockId) (l : Lowering)
    (a c : BlockId) : Prop
  /-- It stays inside the same loops; out of a header, it leaves the loop of the header. -/
  | level (hlt : a.index < c.index) (howner : owner c = owner a) (ha : a ∉ opened)
      (hexit : a ∈ l.headers → (a, c) ∈ l.exits)
  /-- It leads from a header into its loop. -/
  | enter (hlt : a.index < c.index) (howner : owner c = some a) (ha : a ∈ l.headers ∨ a ∈ opened)
  /-- It leads back to the header of the innermost loop. -/
  | back (howner : owner a = some c) (ha : a ∉ opened) (hexit : a ∈ l.headers → (a, c) ∈ l.exits)

/-- The owners of the blocks, when those to come belong to the loop of `o`. -/
def place (l : Lowering) (owner : BlockId → Option BlockId) (o : Option BlockId)
    (b : BlockId) : Option BlockId :=
  if b.index < l.blocks.length then owner b else o

/-- Edges go with the nesting of the loops. Headers of loops that were laid out as a whole are left,
but for those among `tails`, behind which nothing is laid out yet. -/
structure Laid (owner : BlockId → Option BlockId) (opened tails : List BlockId) (l : Lowering) :
    Prop where
  entry : owner ⟨0⟩ = none
  edge : ∀ a c, (a, c) ∈ l.edges → a.index < l.blocks.length ∧ c.index < l.blocks.length ∧
    Kind owner opened l a c
  exit : ∀ a c, (a, c) ∈ l.exits → (a, c) ∈ l.edges ∧ a ∈ l.headers ∧ owner c ≠ some a
  owned : ∀ b h, b.index < l.blocks.length → owner b = some h → h.index < b.index ∧
    (h ∈ l.headers ∨ h ∈ opened)
  headers : ∀ h ∈ l.headers, 0 < h.index ∧ h.index < l.blocks.length ∧ h ∉ opened
  left : ∀ h ∈ l.headers, h ∈ tails ∨ ∃ c, (h, c) ∈ l.exits
  opened : ∀ h ∈ opened, 0 < h.index ∧ h.index < l.blocks.length

namespace Laid

variable {owner : BlockId → Option BlockId} {opened tails : List BlockId} {l : Lowering}
  {a c h : BlockId}

theorem weaken {tails' : List BlockId} (hl : Laid owner opened tails l) (hsub : tails ⊆ tails') :
    Laid owner opened tails' l :=
  { hl with left := fun h hh => (hl.left h hh).imp (fun hm => hsub hm) id }

theorem block {o : Option BlockId} (hl : Laid owner opened tails l) (hpos : 0 < l.blocks.length)
    (ho : ∀ h, o = some h → h.index < l.blocks.length ∧ (h ∈ l.headers ∨ h ∈ opened))
    (body : List Action) :
    Laid (l.place owner o) opened tails (l.block body) := by
  have hlen : (l.block body).blocks.length = l.blocks.length + 1 := by simp [Lowering.block]
  have hold : ∀ {b : BlockId}, b.index < l.blocks.length → l.place owner o b = owner b :=
    fun hb => if_pos hb
  refine ⟨(hold hpos).trans hl.entry, fun a c he => ?_, fun a c he => ?_, fun b h hb howner => ?_,
    fun h hh => ?_, hl.left, fun h hh => ?_⟩
  · obtain ⟨ha, hc, hk⟩ := hl.edge a c he
    refine ⟨by omega, by omega, ?_⟩
    cases hk with
    | level hlt howner hno hexit => exact .level hlt (by rw [hold hc, hold ha, howner]) hno hexit
    | enter hlt howner hh => exact .enter hlt ((hold hc).trans howner) hh
    | back howner hno hexit => exact .back ((hold ha).trans howner) hno hexit
  · obtain ⟨hmem, hh, hne⟩ := hl.exit a c he
    rw [hold (hl.edge a c hmem).2.1]
    exact ⟨hmem, hh, hne⟩
  · unfold place at howner
    split at howner
    · rename_i hlt
      exact hl.owned b h hlt howner
    · rename_i hlt
      obtain ⟨hh, hmem⟩ := ho h howner
      exact ⟨by omega, hmem⟩
  · obtain ⟨hp, hlt, hno⟩ := hl.headers h hh
    exact ⟨hp, by omega, hno⟩
  · obtain ⟨hp, hlt⟩ := hl.opened h hh
    exact ⟨hp, by omega⟩

theorem connect (hl : Laid owner opened (a :: tails) l) (ha : a.index < l.blocks.length)
    (hc : c.index < l.blocks.length)
    (hkind : a.index < c.index ∧ owner c = owner a ∧ a ∉ opened ∨ a.index < c.index ∧
      owner c = some a ∧ a ∈ opened ∨
      owner a = some c ∧ a ∉ opened) : Laid owner opened tails (l.connect a c) := by
  have hmono : ∀ e ∈ l.exits, e ∈ (l.connect a c).exits := by
    intro e he
    simp only [Lowering.connect]
    split
    · exact List.mem_append_left _ he
    · exact he
  have hnew : a ∈ l.headers → (a, c) ∈ (l.connect a c).exits := by
    intro hh
    simp only [Lowering.connect, if_pos hh]
    exact List.mem_append_right _ (List.mem_singleton_self _)
  refine ⟨hl.entry, fun x y he => ?_, fun x y he => ?_, hl.owned, hl.headers,
    fun h hh => ?_, hl.opened⟩
  · rcases List.mem_append.1 he with he | he
    · obtain ⟨hx, hy, hk⟩ := hl.edge x y he
      refine ⟨hx, hy, ?_⟩
      cases hk with
      | level hlt howner hno hexit => exact .level hlt howner hno fun hh => hmono _ (hexit hh)
      | enter hlt howner hh => exact .enter hlt howner hh
      | back howner hno hexit => exact .back howner hno fun hh => hmono _ (hexit hh)
    · cases List.mem_singleton.1 he
      refine ⟨ha, hc, ?_⟩
      rcases hkind with ⟨hlt, howner, hno⟩ | ⟨hlt, howner, hopen⟩ | ⟨howner, hno⟩
      · exact .level hlt howner hno hnew
      · exact .enter hlt howner (.inr hopen)
      · exact .back howner hno hnew
  · have hold : ∀ {e}, e ∈ l.edges → e ∈ (l.connect a c).edges := List.mem_append_left _
    simp only [Lowering.connect] at he
    split at he
    · rename_i hh
      rcases List.mem_append.1 he with he | he
      · obtain ⟨hmem, hx, hne⟩ := hl.exit x y he
        exact ⟨hold hmem, hx, hne⟩
      · cases List.mem_singleton.1 he
        refine ⟨List.mem_append_right _ (List.mem_singleton_self _), hh, fun hown => ?_⟩
        -- the target of an edge that leaves a loop does not belong to it
        rcases hkind with ⟨-, howner, -⟩ | ⟨-, -, hopen⟩ | ⟨howner, -⟩
        · exact Nat.lt_irrefl _ (hl.owned a a ha (howner.symm.trans hown)).1
        · exact (hl.headers a hh).2.2 hopen
        · have hca := (hl.owned a c ha howner).1
          have hac := (hl.owned c a hc hown).1
          omega
    · obtain ⟨hmem, hx, hne⟩ := hl.exit x y he
      exact ⟨hold hmem, hx, hne⟩
  · rcases hl.left h hh with htail | ⟨y, hy⟩
    · rcases List.mem_cons.1 htail with rfl | htail
      · exact .inr ⟨c, hnew hh⟩
      · exact .inl htail
    · exact .inr ⟨y, hmono _ hy⟩

theorem openLoop (hl : Laid owner opened tails l) (hpos : 0 < h.index)
    (hlt : h.index < l.blocks.length) (hheader : h ∉ l.headers)
    (hedges : ∀ a c, (a, c) ∈ l.edges → a ≠ h) : Laid owner (h :: opened) tails l := by
  refine ⟨hl.entry, fun a c he => ?_, hl.exit, fun b g hb howner => ?_, fun g hg => ?_, hl.left,
    fun g hg => ?_⟩
  · obtain ⟨ha, hc, hk⟩ := hl.edge a c he
    refine ⟨ha, hc, ?_⟩
    cases hk with
    | level hlt howner hno hexit => exact .level hlt howner (by simp [hno, hedges a c he]) hexit
    | enter hlt howner hh => exact .enter hlt howner (hh.imp id (List.mem_cons_of_mem _))
    | back howner hno hexit => exact .back howner (by simp [hno, hedges a c he]) hexit
  · exact (hl.owned b g hb howner).imp id fun hg => hg.imp id (List.mem_cons_of_mem _)
  · obtain ⟨hp, hg', hno⟩ := hl.headers g hg
    refine ⟨hp, hg', ?_⟩
    rw [List.mem_cons, not_or]
    exact ⟨fun heq => hheader (heq ▸ hg), hno⟩
  · rcases List.mem_cons.1 hg with rfl | hg
    · exact ⟨hpos, hlt⟩
    · exact hl.opened g hg

theorem close (hl : Laid owner (h :: opened) tails l) (hno : h ∉ opened) :
    Laid owner opened (h :: tails) (l.close h) := by
  have hne : ∀ {a}, a ∉ h :: opened → a ∈ h :: l.headers → a ∈ l.headers := by
    intro a ha hmem
    rcases List.mem_cons.1 hmem with rfl | hmem
    · exact absurd (List.mem_cons_self ..) ha
    · exact hmem
  have hmove : ∀ {a}, a ∈ l.headers ∨ a ∈ h :: opened → a ∈ (l.close h).headers ∨ a ∈ opened := by
    rintro a (ha | ha)
    · exact .inl (List.mem_cons_of_mem _ ha)
    · rcases List.mem_cons.1 ha with rfl | ha
      · exact .inl (List.mem_cons_self ..)
      · exact .inr ha
  have hsub : ∀ {a}, a ∉ h :: opened → a ∉ opened := fun ha hmem => ha (List.mem_cons_of_mem _ hmem)
  refine ⟨hl.entry, fun a c he => ?_, fun a c he => ?_, fun b g hb howner => ?_, fun g hg => ?_,
    fun g hg => ?_, fun g hg => hl.opened g (List.mem_cons_of_mem _ hg)⟩
  · obtain ⟨ha, hc, hk⟩ := hl.edge a c he
    refine ⟨ha, hc, ?_⟩
    cases hk with
    | level hlt howner hno hexit => exact .level hlt howner (hsub hno) fun hmem => hexit (hne hno hmem)
    | enter hlt howner hh => exact .enter hlt howner (hmove hh)
    | back howner hno hexit => exact .back howner (hsub hno) fun hmem => hexit (hne hno hmem)
  · obtain ⟨hmem, hh, hown⟩ := hl.exit a c he
    exact ⟨hmem, List.mem_cons_of_mem _ hh, hown⟩
  · obtain ⟨hlt, hg⟩ := hl.owned b g hb howner
    exact ⟨hlt, hmove hg⟩
  · rcases List.mem_cons.1 hg with rfl | hg
    · obtain ⟨hp, hlt⟩ := hl.opened g (List.mem_cons_self ..)
      exact ⟨hp, hlt, hno⟩
    · obtain ⟨hp, hlt, hno⟩ := hl.headers g hg
      exact ⟨hp, hlt, hsub hno⟩
  · rcases List.mem_cons.1 hg with rfl | hg
    · exact .inl (List.mem_cons_self ..)
    · exact (hl.left g hg).imp (List.mem_cons_of_mem _) id

end Laid

/-- The layout has come to the block `tail`, inside the loop of `o`: it is a block of that loop, or
its header. -/
structure At (arrays : List String) (owner : BlockId → Option BlockId) (opened tails : List BlockId)
    (o : Option BlockId) (tail : BlockId) (l : Lowering) : Prop where
  named : l.Named arrays
  laid : l.Laid owner opened (tail :: tails)
  tail_lt : tail.index < l.blocks.length
  place : owner tail = o ∧ tail ∉ opened ∨ o = some tail ∧ tail ∈ opened

namespace At

variable {arrays : List String} {owner owner' : BlockId → Option BlockId}
  {opened tails : List BlockId} {o : Option BlockId} {tail a : BlockId} {l l' : Lowering}

/-- A block that was laid out after a loop was opened is not the header of that loop. -/
theorem not_mem_opened (h : At arrays owner opened tails o tail l)
    (ha : l.blocks.length ≤ a.index) : a ∉ opened :=
  fun hmem => absurd (h.laid.opened a hmem).2 (by omega)

theorem owner_tail (h : At arrays owner opened tails o tail l)
    (h' : At arrays owner' opened tails o a l') (ha : l.blocks.length ≤ a.index) : owner' a = o :=
  (h'.place.resolve_right fun hp => h.not_mem_opened ha hp.2).1

theorem append {body : List Action} (h : At arrays owner opened tails o tail l)
    (hbody : ∀ action ∈ body, action.Within arrays) :
    ∃ owner', (∀ b : BlockId, b.index < l.blocks.length → owner' b = owner b) ∧
      At arrays owner' opened tails o l.next (l.append tail body) := by
  have hlt := h.tail_lt
  have ho : ∀ g, o = some g → g.index < l.blocks.length ∧ (g ∈ l.headers ∨ g ∈ opened) := by
    rintro g rfl
    rcases h.place with ⟨hown, -⟩ | ⟨heq, hmem⟩
    · obtain ⟨hg, hmem⟩ := h.laid.owned tail g hlt hown
      exact ⟨by omega, hmem⟩
    · cases heq
      exact ⟨hlt, .inr hmem⟩
  have hblock := h.laid.block (by omega) ho body
  have hlen : (l.block body).blocks.length = l.blocks.length + 1 := by simp [block]
  have hnext : l.next.index = l.blocks.length := rfl
  have hold : ∀ b : BlockId, b.index < l.blocks.length → l.place owner o b = owner b :=
    fun b hb => if_pos hb
  have hnew : l.place owner o l.next = o := if_neg (Nat.lt_irrefl _)
  refine ⟨l.place owner o, hold, h.named.append hlt hbody, ?_, ?_,
    .inl ⟨hnew, h.not_mem_opened le_rfl⟩⟩
  · refine (hblock.connect (by omega) (by omega) ?_).weaken (List.subset_cons_self _ _)
    rw [hnew, hold tail hlt]
    rcases h.place with ⟨hown, hno⟩ | ⟨rfl, hmem⟩
    · exact .inl ⟨hlt, hown.symm, hno⟩
    · exact .inr (.inl ⟨hlt, rfl, hmem⟩)
  · rw [length_append_blocks]
    exact Nat.lt_succ_self _

theorem join {b : BlockId} (h : At arrays owner opened (b :: tails) o a l)
    (hb : b.index < l.blocks.length) (howner : owner b = o) (hno : b ∉ opened) :
    ∃ owner', (∀ c : BlockId, c.index < l.blocks.length → owner' c = owner c) ∧
      At arrays owner' opened tails o l.next ((l.append a []).connect b l.next) := by
  obtain ⟨owner', hold, h'⟩ := h.append (List.forall_mem_nil _)
  have hlen := length_append_blocks l a []
  refine ⟨owner', hold, h'.named.connect, ?_, h'.tail_lt, h'.place⟩
  refine Laid.connect (h'.laid.weaken (by simp)) (by omega) h'.tail_lt (.inl ⟨hb, ?_, hno⟩)
  rw [h.owner_tail h' le_rfl, hold b hb, howner]

theorem openLoop (h : At arrays owner opened tails o tail l) :
    ∃ owner', (∀ b : BlockId, b.index < l.blocks.length → owner' b = owner b) ∧ owner' l.next = o ∧
      At arrays owner' (l.next :: opened) tails (some l.next) l.next (l.append tail []) := by
  obtain ⟨owner', hold, h'⟩ := h.append (List.forall_mem_nil _)
  have hnext : l.next.index = l.blocks.length := rfl
  have hlt := h.tail_lt
  refine ⟨owner', hold, h.owner_tail h' le_rfl, h'.named,
    h'.laid.openLoop (by omega) h'.tail_lt ?_ ?_, h'.tail_lt, .inr ⟨rfl, List.mem_cons_self ..⟩⟩
  · intro hmem
    have := (h.laid.headers _ hmem).2.1
    omega
  · rintro a c he rfl
    rcases List.mem_append.1 he with he | he
    · have := (h.laid.edge _ c he).1
      omega
    · have := congrArg (·.1.index) (List.mem_singleton.1 he)
      dsimp only at this
      omega

theorem closeLoop {head : BlockId} (h : At arrays owner (head :: opened) tails (some head) a l)
    (ha : owner a = some head ∧ a ∉ head :: opened) (hhead : owner head = o ∧ head ∉ opened) :
    At arrays owner opened tails o head ((l.connect a head).close head) := by
  have hlt := (h.laid.opened head (List.mem_cons_self ..)).2
  exact ⟨h.named.connect.close, (h.laid.connect h.tail_lt hlt (.inr (.inr ha))).close hhead.2,
    hlt, .inl hhead⟩

end At

end Lowering

open Lowering

/-- Laying out a region keeps to the nesting of the loops: from a block inside the loop of `o` it
comes to a new block inside that loop, and what was laid out before stays where it was. -/
theorem Region.lower_laid {arrays : List String} {owner : BlockId → Option BlockId}
    {opened tails : List BlockId} {o : Option BlockId} {tail : BlockId} {l : Lowering} {r : Region}
    (hr : r.Within arrays) (h : At arrays owner opened tails o tail l) :
    ∃ owner', (∀ b : BlockId, b.index < l.blocks.length → owner' b = owner b) ∧
      l.blocks.length ≤ (r.lower tail l).1.index ∧
      At arrays owner' opened tails o (r.lower tail l).1 (r.lower tail l).2 := by
  induction r generalizing owner opened tails o tail l with
  | straight body =>
    obtain ⟨owner', hold, hat⟩ := h.append hr
    exact ⟨owner', hold, le_rfl, hat⟩
  | seq first second ih₁ ih₂ =>
    obtain ⟨owner₁, hold₁, hle₁, h₁⟩ := ih₁ hr.1 h
    obtain ⟨owner₂, hold₂, hle₂, h₂⟩ := ih₂ hr.2 h₁
    have hle := hle₁.trans h₁.tail_lt.le
    exact ⟨owner₂, fun b hb => (hold₂ b (hb.trans_le hle)).trans (hold₁ b hb), hle.trans hle₂, h₂⟩
  | branch left right ih₁ ih₂ =>
    obtain ⟨owner₁, hold₁, h₁⟩ := h.append (List.forall_mem_nil _)
    obtain ⟨owner₂, hold₂, hle₂, h₂⟩ := ih₁ hr.1 h₁
    rw [lower]
    generalize left.lower l.next (l.append tail []) = x at hle₂ h₂ ⊢
    obtain ⟨a, l₂⟩ := x
    have hhead : l.next.index = l.blocks.length := rfl
    have hlen₁ := length_append_blocks l tail []
    have hlen₂ := h₂.tail_lt
    dsimp only at hle₂ hlen₂ h₂ ⊢
    -- the right branch is laid out behind the head, too, while the end of the left one waits
    have h₂' : At arrays owner₂ opened (a :: tails) o l.next l₂ :=
      ⟨h₂.named, h₂.laid.weaken (List.subset_cons_self _ _), by omega,
        .inl ⟨(hold₂ _ (by omega)).trans (h.owner_tail h₁ le_rfl), h.not_mem_opened le_rfl⟩⟩
    obtain ⟨owner₃, hold₃, hle₃, h₃⟩ := ih₂ hr.2 h₂'
    generalize right.lower l.next l₂ = x at hle₃ h₃ ⊢
    obtain ⟨b, l₃⟩ := x
    have hlen₃ := h₃.tail_lt
    dsimp only at hle₃ hlen₃ h₃ ⊢
    have h₃' : At arrays owner₃ opened (b :: tails) o a l₃ :=
      ⟨h₃.named, h₃.laid.weaken (by simp), by omega,
        .inl ⟨(hold₃ _ (by omega)).trans (h₁.owner_tail h₂ hle₂), h₁.not_mem_opened hle₂⟩⟩
    obtain ⟨owner₄, hold₄, h₄⟩ := h₃'.join hlen₃ (h₂'.owner_tail h₃ hle₃) (h₂'.not_mem_opened hle₃)
    have hjoin : l₃.next.index = l₃.blocks.length := rfl
    refine ⟨owner₄, fun c hc => ?_, by omega, h₄⟩
    rw [hold₄ c (by omega), hold₃ c (by omega), hold₂ c (by omega), hold₁ c hc]
  | loop body ih =>
    obtain ⟨owner₁, hold₁, hown₁, h₁⟩ := h.openLoop
    obtain ⟨owner₂, hold₂, hle₂, h₂⟩ := ih hr h₁
    rw [lower]
    generalize body.lower l.next (l.append tail []) = x at hle₂ h₂ ⊢
    obtain ⟨a, l₂⟩ := x
    have hhead : l.next.index = l.blocks.length := rfl
    have hlen₁ := length_append_blocks l tail []
    dsimp only at hle₂ h₂ ⊢
    refine ⟨owner₂, fun b hb => ?_, le_rfl, h₂.closeLoop ⟨?_, ?_⟩ ⟨?_, h.not_mem_opened le_rfl⟩⟩
    · rw [hold₂ b (by omega), hold₁ b hb]
    · exact h₁.owner_tail h₂ hle₂
    · exact h₁.not_mem_opened hle₂
    · exact (hold₂ _ (by omega)).trans hown₁

end ArrayFlow
