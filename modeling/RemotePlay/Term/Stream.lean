import RemotePlay.Term.Frame

/-! # The stream in the term packets

Leaving out what continuation packets start with, the term packets carry one byte string: the pieces
handed to `copy_to_terms`, one after the other (`copyToTerms_spec`, `copyAll_spec`).  A packet is
opened only when there is a byte to put in it, which bounds their number (`packets_le`). -/

namespace RemotePlay.Term

open RemotePlay.Lib.Words

/-- The bytes carried by a list of packets: the first whole, the others without their continuation
header. -/
def unTerms (term_v2 : Bool) : List (List UInt8) → List UInt8
  | [] => []
  | p :: ps => p ++ ps.flatMap (·.drop (contHdr term_v2).length)

theorem unTerms_concat (v2 : Bool) {ps : List (List UInt8)} (hps : ps ≠ []) (p : List UInt8) :
    unTerms v2 (ps ++ [p]) = unTerms v2 ps ++ p.drop (contHdr v2).length := by
  obtain ⟨q, qs, rfl⟩ := List.exists_cons_of_ne_nil hps
  simp [unTerms]

theorem unTerms_append (v2 : Bool) (ps : List (List UInt8)) (p bs : List UInt8)
    (hp : ps ≠ [] → (contHdr v2).length ≤ p.length) :
    unTerms v2 (ps ++ [p ++ bs]) = unTerms v2 (ps ++ [p]) ++ bs := by
  rcases eq_or_ne ps [] with rfl | h
  · simp [unTerms]
  · rw [unTerms_concat v2 h, unTerms_concat v2 h, List.drop_append_of_le_length (hp h),
      List.append_assoc]

/-- The packets, the one being filled last. -/
def Terms.packets (t : Terms) : List (List UInt8) := t.full ++ [t.cur]

/-- The stream so far. -/
def Terms.stream (v2 : Bool) (t : Terms) : List UInt8 := unTerms v2 t.packets

/-- The packets but the last are full, and a packet opened later has its continuation header. -/
structure Terms.Ok (v2 : Bool) (t : Terms) : Prop where
  full : ∀ p ∈ t.full, p.length = ARQ_RP_DATA_SIZE
  cur_le : t.cur.length ≤ ARQ_RP_DATA_SIZE
  le_cur : t.full ≠ [] → (contHdr v2).length ≤ t.cur.length

theorem Terms.ok_empty (v2 : Bool) : Terms.Ok v2 ⟨[], []⟩ :=
  ⟨by simp, by simp, by simp⟩

theorem Terms.Ok.next {v2 : Bool} {t : Terms} (ht : t.Ok v2) {bs : List UInt8}
    (hbs : t.cur.length + bs.length = ARQ_RP_DATA_SIZE) :
    Terms.Ok v2 ⟨t.full ++ [t.cur ++ bs], contHdr v2⟩ ∧
      Terms.stream v2 ⟨t.full ++ [t.cur ++ bs], contHdr v2⟩ = t.stream v2 ++ bs := by
  refine ⟨⟨?_, (length_contHdr v2).le, fun _ => le_rfl⟩, ?_⟩
  · intro p hp
    rcases List.mem_append.mp hp with hp | hp
    · exact ht.full p hp
    · rw [List.mem_singleton.mp hp, List.length_append, hbs]
  · unfold Terms.stream Terms.packets
    rw [unTerms_concat v2 (by simp), List.drop_length, List.append_nil,
      unTerms_append v2 _ _ _ ht.le_cur]

/-- **`copy_to_terms` appends its data to the stream.**  If there was any, the last packet ends up
with more than a continuation header. -/
theorem copyToTerms_spec {alloc : ℕ → Bool} {v2 : Bool} {t t' : Terms} {data : List UInt8}
    (ht : t.Ok v2) (h : copyToTerms alloc v2 t data = some t') :
    t'.Ok v2 ∧ t'.stream v2 = t.stream v2 ++ data ∧
      (data ≠ [] → t'.full ≠ [] → (contHdr v2).length < t'.cur.length) := by
  induction t, data using copyToTerms.induct alloc v2 with
  | case1 t =>
    rw [copyToTerms] at h
    simp only [↓reduceIte, Option.some.injEq] at h
    subst h
    simpa using ht
  | case2 t data len_0 hd hle =>
    rw [copyToTerms, if_neg hd, dif_pos hle, Option.some.injEq] at h
    subst h
    have hpos : 0 < data.length := List.length_pos_iff.mpr hd
    refine ⟨⟨ht.full, ?_, fun hf => ?_⟩, unTerms_append v2 _ _ _ ht.le_cur, fun _ hf => ?_⟩
    · have := ht.cur_le
      simp only [List.length_append]; omega
    · exact (ht.le_cur hf).trans (by simp)
    · have := ht.le_cur hf
      simp only [List.length_append]; omega
  | case3 t data len_0 hd hle ha ih =>
    rw [copyToTerms, if_neg hd, dif_neg hle, if_pos ha] at h
    have hlen : t.cur.length + (data.take len_0).length = ARQ_RP_DATA_SIZE := by
      have := ht.cur_le
      rw [List.length_take]; omega
    obtain ⟨hok, hst⟩ := ht.next hlen
    obtain ⟨h1, h2, h3⟩ := ih hok h
    refine ⟨h1, ?_, fun _ => h3 ?_⟩
    · rw [h2, hst, List.append_assoc, List.take_append_drop]
    · intro h0
      have := List.drop_eq_nil_iff.mp h0
      omega
  | case4 t data len_0 hd hle ha =>
    rw [copyToTerms, if_neg hd, dif_neg hle, if_neg ha] at h
    cases h

theorem copyToTerms_isSome (v2 : Bool) (t : Terms) (data : List UInt8) :
    ∃ t', copyToTerms (fun _ => true) v2 t data = some t' := by
  induction t, data using copyToTerms.induct (fun _ => true) v2 with
  | case1 t => rw [copyToTerms]; simp
  | case2 t data len_0 hd hle => rw [copyToTerms, if_neg hd, dif_pos hle]; simp
  | case3 t data len_0 hd hle ha ih =>
    rw [copyToTerms, if_neg hd, dif_neg hle, if_pos rfl]
    exact ih
  | case4 t data len_0 hd hle ha => exact absurd rfl ha

/-- **The same for several pieces.** -/
theorem copyAll_spec {alloc : ℕ → Bool} {v2 : Bool} {t t' : Terms} {pieces : List (List UInt8)}
    (ht : t.Ok v2) (hc : t.full ≠ [] → (contHdr v2).length < t.cur.length)
    (h : copyAll alloc v2 t pieces = some t') :
    t'.Ok v2 ∧ t'.stream v2 = t.stream v2 ++ pieces.flatten ∧
      (t'.full ≠ [] → (contHdr v2).length < t'.cur.length) := by
  induction pieces generalizing t with
  | nil =>
    simp only [copyAll, Option.some.injEq] at h
    subst h
    exact ⟨ht, by simp, hc⟩
  | cons data rest ih =>
    simp only [copyAll, Option.bind_eq_bind, Option.bind_eq_some_iff] at h
    obtain ⟨t1, h1, h2⟩ := h
    obtain ⟨hok, hst, hgt⟩ := copyToTerms_spec ht h1
    have hc1 : t1.full ≠ [] → (contHdr v2).length < t1.cur.length := by
      intro hf
      rcases eq_or_ne data [] with rfl | hd
      · rw [copyToTerms] at h1
        simp only [↓reduceIte, Option.some.injEq] at h1
        subst h1; exact hc hf
      · exact hgt hd hf
    obtain ⟨hok', hst', hc'⟩ := ih hok hc1 h2
    exact ⟨hok', by rw [hst', hst, List.flatten_cons, List.append_assoc], hc'⟩

theorem copyAll_isSome (v2 : Bool) (t : Terms) (pieces : List (List UInt8)) :
    ∃ t', copyAll (fun _ => true) v2 t pieces = some t' := by
  induction pieces generalizing t with
  | nil => exact ⟨t, rfl⟩
  | cons data rest ih =>
    obtain ⟨t1, h1⟩ := copyToTerms_isSome v2 t data
    obtain ⟨t2, h2⟩ := ih t1
    exact ⟨t2, by simp only [copyAll, h1, Option.bind_eq_bind, Option.bind_some, h2]⟩

/-! ### How many packets -/

theorem length_drop_flatMap (k : ℕ) {ps : List (List UInt8)}
    (h : ∀ p ∈ ps, p.length = ARQ_RP_DATA_SIZE) :
    (ps.flatMap (·.drop k)).length = ps.length * (ARQ_RP_DATA_SIZE - k) := by
  induction ps with
  | nil => simp
  | cons p ps ih =>
    rw [List.flatMap_cons, List.length_append, ih fun q hq => h q (List.mem_cons_of_mem p hq),
      List.length_drop, h p List.mem_cons_self, List.length_cons, Nat.succ_mul, Nat.add_comm]

theorem length_contHdr_le (v2 : Bool) : (contHdr v2).length ≤ 4 := by
  cases v2 <;> decide

/-- **A stream that leaves room for the continuation headers fits the packets there are.** -/
theorem packets_le {v2 : Bool} {t : Terms} (ht : t.Ok v2)
    (hc : t.full ≠ [] → (contHdr v2).length < t.cur.length)
    (hlen : (t.stream v2).length ≤ ARQ_RP_DATA_SIZE + RP_CORE_COUNT_MAX * (ARQ_RP_DATA_SIZE - 4)) :
    t.packets.length ≤ RP_CORE_COUNT_MAX + 1 := by
  unfold Terms.packets
  rw [List.length_append, List.length_singleton, Nat.add_le_add_iff_right]
  rcases hf : t.full with _ | ⟨p, ps⟩
  · simp
  have hne : t.full ≠ [] := by simp [hf]
  have hall := ht.full
  rw [hf] at hall
  have h4 := length_contHdr_le v2
  have hps : (ps.flatMap (·.drop (contHdr v2).length)).length =
      ps.length * (ARQ_RP_DATA_SIZE - (contHdr v2).length) :=
    length_drop_flatMap _ fun q hq => hall q (List.mem_cons_of_mem p hq)
  have hst : (t.stream v2).length =
      p.length + ps.length * (ARQ_RP_DATA_SIZE - (contHdr v2).length) +
        (t.cur.length - (contHdr v2).length) := by
    unfold Terms.stream Terms.packets
    rw [unTerms_concat v2 hne, hf, List.length_append, unTerms, List.length_append, hps,
      List.length_drop]
  have hp := hall p List.mem_cons_self
  have hcur := hc hne
  have hmul : ps.length * (ARQ_RP_DATA_SIZE - 4) ≤
      ps.length * (ARQ_RP_DATA_SIZE - (contHdr v2).length) :=
    Nat.mul_le_mul_left _ (by omega)
  rw [hst, hp] at hlen
  simp only [List.length_cons, ARQ_RP_DATA_SIZE, ARQ_DATA_SIZE, PACKET_SIZE, ARQ_OVERHEAD_SIZE,
    ARQ_DATA_HDR_SIZE, RP_CORE_COUNT_MAX] at *
  omega

end RemotePlay.Term
