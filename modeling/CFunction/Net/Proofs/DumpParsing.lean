import CFunction.Net.RouteDump

/-!
# The two loops over a dump

`parse_routes` reads the attributes of a message and `get_default_gateway` the messages of the
buffer; both get back what was put on the wire.
-/

namespace CFunction
namespace Gateway

open CString LittleEndian

variable {ifIndexToName : Nat → Option IfName} {buf : Bytes} {seq portid : Nat}

theorem toUnsigned_nat {n : Nat} (h : n < 4294967296) : toUnsigned n = n := by
  unfold toUnsigned
  omega

theorem toUnsigned_lt (x : Int) : toUnsigned x < 4294967296 := by
  unfold toUnsigned
  omega

theorem le_align {n : Nat} (h : n < 4294967293) : n ≤ align n := by
  unfold align
  omega

theorem align_of_mod {n : Nat} (hmod : n % 4 = 0) (h : n < 4294967293) : align n = n := by
  unfold align
  omega

theorem align_mod (n : Nat) : align n % 4 = 0 := Nat.mul_mod_left _ 4

theorem mul_length_le_flatMap {α β : Type} {k : Nat} {f : α → List β}
    (hk : ∀ a, k ≤ (f a).length) (l : List α) : k * l.length ≤ (l.flatMap f).length := by
  induction l with
  | nil => exact Nat.le_refl 0
  | cons a l ih =>
    rw [List.flatMap_cons, List.length_append, List.length_cons, Nat.mul_succ, Nat.add_comm]
    exact Nat.add_le_add (hk a) ih

/-! ### Attributes -/

theorem RtAttr.encode_length (a : RtAttr) :
    a.encode.length = align (RTATTR_SIZE + a.payload.length) := by
  have hle : RTATTR_SIZE + a.payload.length ≤ align (RTATTR_SIZE + a.payload.length) := by
    apply le_align
    exact Nat.lt_trans a.short (by decide)
  simp only [RtAttr.encode, RTATTR_SIZE, List.length_append, toLE_length, List.length_replicate]
    at hle ⊢
  omega

theorem RtAttr.le_encode_length (a : RtAttr) :
    RTATTR_SIZE + a.payload.length ≤ a.encode.length := by
  rw [a.encode_length]
  apply le_align
  exact Nat.lt_trans a.short (by decide)

theorem four_le_encode_length (a : RtAttr) : 4 ≤ a.encode.length :=
  Nat.le_trans (Nat.le_add_right _ _) a.le_encode_length

/-- What an attribute changes in `rt_info`. -/
def RouteInfo.add (ifIndexToName : Nat → Option IfName) (info : RouteInfo) (a : RtAttr) :
    RouteInfo where
  ifName := ((a.interface ifIndexToName).map fun n => info.ifName.strncpy n.name).getD info.ifName
  gateway := (a.wordOf RTA_GATEWAY).getD info.gateway
  srcAddr := (a.wordOf RTA_PREFSRC).getD info.srcAddr
  dstAddr := (a.wordOf RTA_DST).getD info.dstAddr

section
variable {a : RtAttr} {off : Nat}

theorem rtaLen_eq (h : BytesAt buf off a.encode) :
    rtaLen buf off = some (RTATTR_SIZE + a.payload.length) := h.field a.short

theorem rtaType_eq (h : BytesAt buf off a.encode) : rtaType buf off = some a.type.toNat :=
  h.skip.field a.type.toNat_lt

theorem rtaWord_eq (h : BytesAt buf off a.encode)
    (htype : a.type.toNat ∈ [RTA_OIF, RTA_GATEWAY, RTA_PREFSRC, RTA_DST]) :
    rtaWord buf off = some a.word := by
  have hpayload : BytesAt buf (off + 2 + 2) a.payload := h.skip.skip.left
  rw [← List.take_append_drop 4 a.payload] at hpayload
  apply hpayload.left.loadLE
  rw [List.length_take]
  exact Nat.min_eq_left (a.wide htype)

theorem parseAttr_eq (h : BytesAt buf off a.encode) (info : RouteInfo) :
    parseAttr ifIndexToName buf off info = some (info.add ifIndexToName a) := by
  have hword := rtaWord_eq h
  rw [parseAttr, rtaType_eq h]
  simp only [Option.bind_eq_bind, Option.bind_some]
  by_cases hoif : a.type.toNat = RTA_OIF
  · rw [if_pos hoif, hword (by simp [hoif])]
    cases hname : ifIndexToName a.word with
    | some n => simp [RouteInfo.add, RtAttr.interface, RtAttr.wordOf, hoif, hname]
    | none => simp [RouteInfo.add, RtAttr.interface, RtAttr.wordOf, hoif, hname]
  rw [if_neg hoif]
  by_cases hgateway : a.type.toNat = RTA_GATEWAY
  · rw [if_pos hgateway, hword (by simp [hgateway])]
    simp [RouteInfo.add, RtAttr.interface, RtAttr.wordOf, hgateway]
  rw [if_neg hgateway]
  by_cases hsrc : a.type.toNat = RTA_PREFSRC
  · rw [if_pos hsrc, hword (by simp [hsrc])]
    simp [RouteInfo.add, RtAttr.interface, RtAttr.wordOf, hsrc]
  rw [if_neg hsrc]
  by_cases hdst : a.type.toNat = RTA_DST
  · rw [if_pos hdst, hword (by simp [hdst])]
    simp [RouteInfo.add, RtAttr.interface, RtAttr.wordOf, hdst]
  · rw [if_neg hdst]
    simp [RouteInfo.add, RtAttr.interface, RtAttr.wordOf, hoif, hgateway, hsrc, hdst]

end

theorem rtaOk_encode {a : RtAttr} {off : Nat} {len : Int} (h : BytesAt buf off a.encode)
    (hlen : (a.encode.length : Int) ≤ len) : rtaOk buf off len = some true := by
  have hle := a.le_encode_length
  rw [rtaOk, if_neg (by omega), rtaLen_eq h]
  simp only [Option.bind_eq_bind, Option.bind_some, Option.some.injEq, Bool.and_eq_true,
    decide_eq_true_eq]
  omega

/-- The loop over the attributes applies each of them, in order. -/
theorem parseAttrs_eq {attrs : List RtAttr} {fuel off : Nat} {info : RouteInfo}
    (h : BytesAt buf off (attrs.flatMap RtAttr.encode)) (hfuel : attrs.length < fuel)
    (hbuf : buf.length ≤ 2147483647) :
    parseAttrs ifIndexToName buf fuel off (attrs.flatMap RtAttr.encode).length info =
      some (attrs.foldl (RouteInfo.add ifIndexToName) info) := by
  induction attrs generalizing fuel off info with
  | nil =>
    obtain ⟨fuel, rfl⟩ := Nat.exists_eq_add_one.2 hfuel
    rfl
  | cons a attrs ih =>
    obtain ⟨fuel, rfl⟩ := Nat.exists_eq_add_one.2 (Nat.zero_lt_of_lt hfuel)
    rw [List.flatMap_cons] at h ⊢
    have hroom := h.le_length
    rw [List.length_append] at hroom ⊢
    have hok : rtaOk buf off ((a.encode.length + (attrs.flatMap RtAttr.encode).length : Nat)) =
        some true := rtaOk_encode h.left (by omega)
    have hleft : toInt32 ((a.encode.length + (attrs.flatMap RtAttr.encode).length : Nat) -
        a.encode.length) = (attrs.flatMap RtAttr.encode).length := by
      apply toInt32_eq_nat
      · omega
      · omega
    rw [parseAttrs, hok]
    simp only [Option.bind_eq_bind, Option.bind_some, Bool.true_eq_false, if_false,
      parseAttr_eq h.left, rtaLen_eq h.left, ← a.encode_length]
    rw [hleft]
    exact ih h.right (Nat.lt_of_succ_lt_succ hfuel)

theorem encodeAttrs_mod (attrs : List RtAttr) : (attrs.flatMap RtAttr.encode).length % 4 = 0 := by
  induction attrs with
  | nil => rfl
  | cons a attrs ih =>
    rw [List.flatMap_cons, List.length_append, Nat.add_mod, ih, a.encode_length, align_mod]

/-! ### What the attributes say together -/

/-- A field that the items overwrite in turn has the value of the last one with a value. -/
theorem foldl_last {σ α β : Type} (field : σ → β) (step : σ → α → σ) (f : α → Option β)
    (hstep : ∀ s a, field (step s a) = (f a).getD (field s)) (l : List α) (s : σ) :
    field (l.foldl step s) = (l.reverse.findSome? f).getD (field s) := by
  induction l generalizing s with
  | nil => rfl
  | cons a l ih =>
    rw [List.foldl_cons, ih, hstep, List.reverse_cons, List.findSome?_append,
      List.findSome?_singleton]
    cases l.reverse.findSome? f with
    | some b => rfl
    | none => rfl

/-- What `parse_routes` leaves in a zeroed `rt_info`. -/
def RouteMsg.info (ifIndexToName : Nat → Option IfName) (m : RouteMsg) : RouteInfo :=
  m.attrs.foldl (RouteInfo.add ifIndexToName) .zero

theorem info_gateway (m : RouteMsg) : (m.info ifIndexToName).gateway = m.address RTA_GATEWAY :=
  foldl_last RouteInfo.gateway _ _ (fun _ _ => rfl) _ _

theorem info_dstAddr (m : RouteMsg) : (m.info ifIndexToName).dstAddr = m.address RTA_DST :=
  foldl_last RouteInfo.dstAddr _ _ (fun _ _ => rfl) _ _

theorem info_ifName (m : RouteMsg) :
    (m.info ifIndexToName).ifName.read = some (m.interface ifIndexToName) := by
  have hstep : ∀ (info : RouteInfo) (a : RtAttr), (info.add ifIndexToName a).ifName.read =
      ((a.interface ifIndexToName).map fun n => some n.name).getD info.ifName.read := by
    intro info a
    rw [RouteInfo.add]
    cases a.interface ifIndexToName with
    | none => rfl
    | some n => exact info.ifName.read_strncpy n.zero_notMem n.length_lt
  have hlast := foldl_last (fun info : RouteInfo => info.ifName.read) _ _ hstep m.attrs .zero
  rw [RouteMsg.info, hlast, RouteMsg.interface, RouteMsg.last]
  have hzero : RouteInfo.zero.ifName.read = some [] := CharArray.read_zero (by decide)
  rw [hzero]
  have hmap : (m.attrs.reverse.findSome? fun a =>
      (a.interface ifIndexToName).map fun n => some n.name) =
      (m.attrs.reverse.findSome? (RtAttr.interface ifIndexToName)).map fun n => some n.name := by
    rw [List.map_findSome?]
    rfl
  rw [hmap]
  cases m.attrs.reverse.findSome? (RtAttr.interface ifIndexToName) with
  | none => rfl
  | some n => rfl

/-! ### Messages -/

theorem encodeHeader_length (len type flags seq pid : Nat) :
    (encodeHeader len type flags seq pid).length = NLMSGHDR_SIZE := by
  simp only [encodeHeader, List.length_append, toLE_length]

theorem RouteMsg.encode_length (m : RouteMsg) (seq portid : Nat) :
    (m.encode seq portid).length = NLMSGHDR_SIZE + RTMSG_SIZE + m.encodeAttrs.length := by
  simp only [RouteMsg.encode, List.length_append, encodeHeader_length, toLE_length,
    m.lens.length_eq, m.others.length_eq, RTMSG_SIZE]
  omega

theorem header_le_encode_length (seq portid : Nat) (m : RouteMsg) :
    NLMSGHDR_SIZE + RTMSG_SIZE ≤ (m.encode seq portid).length := by
  rw [m.encode_length]
  exact Nat.le_add_right _ _

section
variable {m : RouteMsg} {off : Nat}

theorem nlmsgLen_eq (h : BytesAt buf off (m.encode seq portid)) (hbuf : buf.length ≤ 2147483647) :
    nlmsgLen buf off = some (m.encode seq portid).length := by
  have hle := h.le_length
  rw [m.encode_length] at hle ⊢
  apply h.left.field
  omega

theorem nlmsgOk_encode {len : Nat} (h : BytesAt buf off (m.encode seq portid))
    (hbuf : buf.length ≤ 2147483647) (hlen : (m.encode seq portid).length ≤ len) :
    nlmsgOk buf off len = some true := by
  have hm := m.encode_length seq portid
  rw [nlmsgOk, if_neg (by omega), nlmsgLen_eq h hbuf]
  simp only [Option.bind_eq_bind, Option.bind_some, Option.some.injEq, Bool.and_eq_true,
    decide_eq_true_eq]
  omega

/-- `parse_routes` on a message of the dump. -/
theorem parseRoutes_eq (h : BytesAt buf off (m.encode seq portid))
    (hbuf : buf.length ≤ GATEWAY_BUFSIZE) :
    parseRoutes ifIndexToName buf off .zero =
      if m.family.toNat = AF_INET ∧ m.table.toNat = RT_TABLE_MAIN then
        some (0, m.info ifIndexToName)
      else some (-1, .zero) := by
  have hint : buf.length ≤ 2147483647 := Nat.le_trans hbuf (by decide)
  have hrtm := h.behind (encodeHeader_length _ _ _ _ _)
  have hlens := hrtm.skip.behind m.lens.length_eq
  have hattrs := hlens.skip.behind m.others.length_eq
  have hfamily : rtmFamily buf (off + NLMSGHDR_SIZE) = some m.family.toNat :=
    hrtm.field m.family.toNat_lt
  have htable : rtmTable buf (off + NLMSGHDR_SIZE) = some m.table.toNat :=
    hlens.field m.table.toNat_lt
  have hroom := h.le_length
  have hleft : toInt32 (((m.encode seq portid).length : Nat) - (NLMSGHDR_SIZE + RTMSG_SIZE : Nat)) =
      m.encodeAttrs.length := by
    rw [m.encode_length] at hroom ⊢
    apply toInt32_eq_nat
    · omega
    · omega
  have hfuel : m.attrs.length < GATEWAY_BUFSIZE := by
    have hle : 4 * m.attrs.length ≤ m.encodeAttrs.length :=
      mul_length_le_flatMap four_le_encode_length m.attrs
    simp only [m.encode_length, NLMSGHDR_SIZE] at hroom
    omega
  rw [parseRoutes, hfamily]
  simp only [Option.bind_eq_bind, Option.bind_some, htable, nlmsgLen_eq h hint, hleft]
  by_cases hinet : m.family.toNat = AF_INET
  · rw [if_neg (not_not_intro hinet)]
    by_cases hmain : m.table.toNat = RT_TABLE_MAIN
    · have hparse : parseAttrs ifIndexToName buf GATEWAY_BUFSIZE
          (off + NLMSGHDR_SIZE + RTMSG_SIZE) m.encodeAttrs.length .zero =
          some (m.info ifIndexToName) := parseAttrs_eq hattrs hfuel hint
      rw [if_neg (not_not_intro hmain), if_pos ⟨hinet, hmain⟩, hparse]
      rfl
    · rw [if_pos hmain, if_neg fun hboth => hmain hboth.2]
  · rw [if_pos hinet, if_neg fun hboth => hinet hboth.1]

end

/-- What `get_default_gateway` makes of the route that it looks for. -/
def answer : Option RouteMsg → Int × Option Bytes
  | some m => (0, some (inetNtoa (m.address RTA_GATEWAY)))
  | none => (-1, none)

theorem defaultRoute_cons_of_pos {ethName : Bytes} {m : RouteMsg} (ms : List RouteMsg)
    (h : m.IsDefault ifIndexToName ethName) :
    defaultRoute ifIndexToName ethName (m :: ms) = some m := by
  rw [defaultRoute]
  apply List.find?_cons_of_pos
  exact decide_eq_true h

theorem defaultRoute_cons_of_neg {ethName : Bytes} {m : RouteMsg} (ms : List RouteMsg)
    (h : ¬ m.IsDefault ifIndexToName ethName) :
    defaultRoute ifIndexToName ethName (m :: ms) = defaultRoute ifIndexToName ethName ms := by
  rw [defaultRoute]
  apply List.find?_cons_of_neg
  rwa [decide_eq_true_eq]

theorem defaultRoute_eq_none_iff {ethName : Bytes} {ms : List RouteMsg} :
    defaultRoute ifIndexToName ethName ms = none ↔
      ∀ m ∈ ms, ¬ m.IsDefault ifIndexToName ethName := by
  rw [defaultRoute, List.find?_eq_none]
  simp only [decide_eq_true_eq]

/-- The loop over the messages stops at the first default route. -/
theorem routesLoop_eq {ethName : Bytes} {ms : List RouteMsg} {fuel off : Nat}
    (h : BytesAt buf off (encodeAll seq portid ms)) (hfuel : ms.length < fuel)
    (hbuf : buf.length ≤ GATEWAY_BUFSIZE) :
    routesLoop ifIndexToName ethName buf fuel off (encodeAll seq portid ms).length =
      some (answer (defaultRoute ifIndexToName ethName ms)) := by
  have hint : buf.length ≤ 2147483647 := Nat.le_trans hbuf (by decide)
  induction ms generalizing fuel off with
  | nil =>
    obtain ⟨fuel, rfl⟩ := Nat.exists_eq_add_one.2 hfuel
    rfl
  | cons m ms ih =>
    obtain ⟨fuel, rfl⟩ := Nat.exists_eq_add_one.2 (Nat.zero_lt_of_lt hfuel)
    rw [encodeAll, List.flatMap_cons, ← encodeAll] at h ⊢
    have hroom := h.le_length
    rw [List.length_append] at hroom ⊢
    have hlen : toUnsigned
        (((m.encode seq portid).length + (encodeAll seq portid ms).length : Nat) : Int) =
        (m.encode seq portid).length + (encodeAll seq portid ms).length := by
      apply toUnsigned_nat
      omega
    have hstep : align (m.encode seq portid).length = (m.encode seq portid).length := by
      apply align_of_mod
      · rw [m.encode_length, Nat.add_mod, RouteMsg.encodeAttrs, encodeAttrs_mod]
        rfl
      · omega
    have hleft : toInt32 (((m.encode seq portid).length + (encodeAll seq portid ms).length : Nat) -
        (m.encode seq portid).length) = (encodeAll seq portid ms).length := by
      apply toInt32_eq_nat
      · omega
      · omega
    rw [routesLoop, hlen, nlmsgOk_encode h.left hint (Nat.le_add_right _ _)]
    simp only [Option.bind_eq_bind, Option.bind_some, Bool.true_eq_false, if_false,
      parseRoutes_eq h.left hbuf, nlmsgLen_eq h.left hint, hstep, hleft]
    have hnext := ih h.right (Nat.lt_of_succ_lt_succ hfuel)
    by_cases hmain : m.family.toNat = AF_INET ∧ m.table.toNat = RT_TABLE_MAIN
    · simp only [if_pos hmain, Option.bind_some, info_ifName, info_dstAddr, info_gateway, true_and]
      by_cases hdefault : m.IsDefault ifIndexToName ethName
      · rw [if_pos hdefault.2.2, defaultRoute_cons_of_pos ms hdefault]
        rfl
      · have hother : ¬ (m.interface ifIndexToName = ethName ∧ m.address RTA_DST = 0 ∧
            m.address RTA_GATEWAY ≠ 0) := fun hsame => hdefault ⟨hmain.1, hmain.2, hsame⟩
        rw [if_neg hother, hnext, defaultRoute_cons_of_neg ms hdefault]
    · have hdefault : ¬ m.IsDefault ifIndexToName ethName := fun hd => hmain ⟨hd.1, hd.2.1⟩
      have hzero : RouteInfo.zero.ifName.read = some [] := CharArray.read_zero (by decide)
      have hret : ¬ ((-1 : Int) = 0 ∧ [] = ethName ∧ RouteInfo.zero.dstAddr = 0 ∧
          RouteInfo.zero.gateway ≠ 0) := fun hsame => absurd hsame.1 (by decide)
      simp only [if_neg hmain, Option.bind_some, hzero, if_neg hret]
      rw [hnext, defaultRoute_cons_of_neg ms hdefault]

end Gateway
end CFunction
