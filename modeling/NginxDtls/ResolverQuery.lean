import NginxDtls.ResolverAnswer

/-! Queries: `ngx_resolver_create_name_query` and `ngx_resolver_create_srv_query` write a name label by label from its
end. A response brings the question back; whether it is read as the name that was asked for depends on the labels. -/

namespace NginxDtls.Dns

open Reading

/-! ### Queries -/

/-- One step of the loop that converts a name, from its last byte to its first: what is written, and the length of the
label so far. -/
def putByte (c : UInt8) (st : Option (List UInt8 × ℕ)) : Option (List UInt8 × ℕ) :=
  st.bind fun (p, len) =>
    if c ≠ 46 then some (c :: p, len + 1)
    else if len = 0 ∨ 255 < len then none
    else some (UInt8.ofNat len :: p, 0)

/-- "www.example.com" as "\3www\7example\3com\0". -/
def putName (name : List UInt8) : Option (List UInt8) :=
  if name = [] then none
  else (name.foldr putByte (some ([0], 0))).bind fun (p, len) =>
    if len = 0 ∨ 255 < len then none else some (UInt8.ofNat len :: p)

/-- The header of a query: recursion, one question. -/
def queryHeader (ident : ℕ) : List UInt8 :=
  [UInt8.ofNat (ident / 256 % 256), UInt8.ofNat (ident % 256), 1, 0, 0, 1, 0, 0, 0, 0, 0, 0]

/-- The type of a question and its class. -/
def querySuffix (type : ℕ) : List UInt8 := [0, UInt8.ofNat type, 0, 1]

/-- The queries of a node. -/
structure Query where
  query : List UInt8
  qlen : ℕ
  query6 : Option (List UInt8) := none
  deriving DecidableEq, Repr

/-- `NGX_OK` with the queries, `NGX_DECLINED` or `NGX_ERROR`. -/
inductive Created where
  | ok (q : Query)
  | declined
  | error
  deriving DecidableEq, Repr

/-- The query for AAAA records: `qlen` bytes of the query for A records, with a number and a type of its own. `fresh` is
what its memory held before. -/
def copyQuery (query fresh : List UInt8) (qlen nlen ident : ℕ) : List UInt8 :=
  (((query.take qlen ++ fresh.drop qlen).take query.length).set 0 (UInt8.ofNat (ident / 256 % 256)) |>.set 1
    (UInt8.ofNat (ident % 256))).set (12 + nlen + 1) (UInt8.ofNat ngxResolveAaaa)

/-- `ngx_resolver_create_name_query`. -/
def ngxResolverCreateNameQuery (alloc ipv6 : Bool) (ident ident6 : ℕ) (fresh name : List UInt8) : Created :=
  let nlen := if name ≠ [] then 1 + name.length + 1 else 1
  let len := 12 + nlen + 4
  if !alloc then .error
  else
    match putName name with
    | none => .declined
    | some qname =>
      let query := queryHeader ident ++ qname ++ querySuffix ngxResolveA
      let qlen := len % 65536
      .ok { query, qlen, query6 := if ipv6 then some (copyQuery query fresh qlen nlen ident6) else none }

/-- `ngx_resolver_create_srv_query`. -/
def ngxResolverCreateSrvQuery (alloc : Bool) (ident : ℕ) (name : List UInt8) : Created :=
  let nlen := if name ≠ [] then 1 + name.length + 1 else 1
  let len := 12 + nlen + 4
  if !alloc then .error
  else
    match putName name with
    | none => .declined
    | some qname =>
      .ok { query := queryHeader ident ++ qname ++ querySuffix ngxResolveSrv, qlen := len % 65536 }

/-! ### Labels -/

/-- Labels as they are written. -/
def wire (labels : List (List UInt8)) : List UInt8 :=
  labels.flatMap (fun label => UInt8.ofNat label.length :: label) ++ [0]

@[simp] theorem wire_nil : wire [] = [0] := rfl

theorem wire_cons (label : List UInt8) (labels : List (List UInt8)) :
    wire (label :: labels) = UInt8.ofNat label.length :: (label ++ wire labels) := by
  simp [wire]

/-- A label that the conversion takes. -/
def LabelWritten (label : List UInt8) : Prop := 0 < label.length ∧ label.length ≤ 255

instance (label : List UInt8) : Decidable (LabelWritten label) := inferInstanceAs (Decidable (_ ∧ _))

theorem not_labelWritten_iff {label : List UInt8} : ¬LabelWritten label ↔ label.length = 0 ∨ 255 < label.length := by
  unfold LabelWritten
  omega

theorem putByte_dot (p : List UInt8) (len : ℕ) :
    putByte 46 (some (p, len)) = if len = 0 ∨ 255 < len then none else some (UInt8.ofNat len :: p, 0) := rfl

/-- The loop has written the labels after the first, and the first without its length. -/
theorem foldr_putByte (name : List UInt8) :
    ∃ label labels, name.splitOn 46 = label :: labels ∧
      name.foldr putByte (some ([0], 0)) =
        if ∀ l ∈ labels, LabelWritten l then some (label ++ wire labels, label.length) else none := by
  induction name with
  | nil => exact ⟨[], [], rfl, rfl⟩
  | cons c name ih =>
    obtain ⟨label, labels, hsplit, hfold⟩ := ih
    rw [List.foldr_cons, hfold, List.splitOn, List.splitOnP_cons_eq_if_modifyHead]
    rw [List.splitOn] at hsplit
    rw [hsplit]
    by_cases hdot : c = 46
    · refine ⟨[], label :: labels, by simp [hdot], ?_⟩
      by_cases hlabels : ∀ l ∈ labels, LabelWritten l
      · by_cases hlabel : LabelWritten label
        · rw [if_pos hlabels, if_pos (List.forall_mem_cons.mpr ⟨hlabel, hlabels⟩), wire_cons]
          have hlen := mt not_labelWritten_iff.mpr (not_not.mpr hlabel)
          rw [hdot, putByte_dot, if_neg hlen, List.nil_append, List.length_nil]
        · rw [if_pos hlabels, if_neg fun h => hlabel (h label List.mem_cons_self), hdot, putByte_dot,
            if_pos (not_labelWritten_iff.mp hlabel)]
      · rw [if_neg hlabels, if_neg fun h => hlabels fun l hl => h l (List.mem_cons_of_mem label hl)]
        rfl
    · refine ⟨c :: label, labels, by simp [hdot], ?_⟩
      split_ifs
      · simp [putByte, hdot]
      · rfl

/-- A name is converted if it has labels of one to 255 bytes. -/
theorem putName_eq_some_iff {name qname : List UInt8} :
    putName name = some qname ↔ (∀ l ∈ name.splitOn 46, LabelWritten l) ∧ qname = wire (name.splitOn 46) := by
  obtain ⟨label, labels, hsplit, hfold⟩ := foldr_putByte name
  rw [putName, hfold, hsplit, List.forall_mem_cons, wire_cons]
  by_cases hname : name = []
  · subst hname
    obtain ⟨rfl, rfl⟩ := List.cons.inj hsplit
    simp [LabelWritten]
  · rw [if_neg hname]
    by_cases hlabels : ∀ l ∈ labels, LabelWritten l
    · rw [if_pos hlabels, Option.bind_some]
      dsimp only
      by_cases hlabel : LabelWritten label
      · rw [if_neg (mt not_labelWritten_iff.mpr (not_not.mpr hlabel)), Option.some_inj, eq_comm,
          and_iff_right ⟨hlabel, hlabels⟩]
      · rw [if_pos (not_labelWritten_iff.mp hlabel)]
        exact iff_of_false (Option.some_ne_none qname).symm fun h => hlabel h.1.1
    · rw [if_neg hlabels, Option.bind_none]
      exact iff_of_false (Option.some_ne_none qname).symm fun h => hlabels h.1.2

theorem wire_length_splitOn (name : List UInt8) : (wire (name.splitOn 46)).length = name.length + 2 := by
  induction name with
  | nil => rfl
  | cons c name ih =>
    rw [List.splitOn_cons_eq_if_modifyHead]
    split_ifs
    · rw [wire_cons, List.nil_append, List.length_cons, ih, List.length_cons]
    · cases hsplit : name.splitOn 46 with
      | nil => exact absurd hsplit (List.splitOn_ne_nil 46 name)
      | cons label labels =>
        rw [hsplit, wire_cons, List.length_cons, List.length_append] at ih
        rw [List.modifyHead_cons, wire_cons, List.length_cons, List.cons_append, List.length_cons, List.length_append,
          List.length_cons, ih]

theorem length_lt_wire_length (labels : List (List UInt8)) : labels.length < (wire labels).length := by
  induction labels with
  | nil => exact Nat.one_pos
  | cons label labels ih =>
    rw [wire_cons, List.length_cons, List.length_cons, List.length_append]
    omega

/-! ### Reading a question -/

set_option maxRecDepth 4000 in
/-- The two bits of a pointer. -/
theorem pointer_bits : ∀ n < 256, n &&& 0xc0 = 0 ↔ n < 64 := by decide

theorem toNat_labelLength {label : List UInt8} (h : label.length ≤ 255) :
    (UInt8.ofNat label.length).toNat = label.length := by
  rw [UInt8.toNat_ofNat', Nat.mod_eq_of_lt (by omega)]

section Reading

variable {b : ℕ → UInt8} {n : ℕ} {labels : List (List UInt8)}

/-- The question is taken if no label has the two bits of a pointer in its length. -/
theorem questionEnd_wire {k p : ℕ} (hwire : Holds b p (wire labels)) (hroom : p + (wire labels).length ≤ n)
    (hk : labels.length < k) (hwritten : ∀ l ∈ labels, LabelWritten l) :
    (questionEnd n k p).val b = if ∀ l ∈ labels, l.length ≤ 63 then .inr (p + (wire labels).length - 1)
      else .inl (.dropped "unexpected compression pointer in DNS response") := by
  induction labels generalizing k p with
  | nil =>
    obtain ⟨k, rfl⟩ := Nat.exists_eq_add_one.mpr hk
    have hzero := (holds_cons.mp hwire).1
    rw [wire_nil, List.length_singleton] at hroom
    rw [questionEnd]
    simp only [val_ite, val_rd_bind, val_pure, hzero]
    rw [if_pos (by omega)]
    rfl
  | cons label labels ih =>
    obtain ⟨k, rfl⟩ := Nat.exists_eq_add_one.mpr (Nat.zero_lt_of_lt hk)
    obtain ⟨hlabel, hlabels⟩ := List.forall_mem_cons.mp hwritten
    rw [wire_cons] at hwire hroom ⊢
    obtain ⟨hlen, hrest⟩ := holds_cons.mp hwire
    obtain ⟨-, hrest⟩ := holds_append.mp hrest
    rw [List.length_cons, List.length_append] at hroom ⊢
    rw [List.length_cons] at hk
    rw [questionEnd]
    simp only [val_ite, val_rd_bind, val_pure, hlen, toNat_labelLength hlabel.2]
    rw [if_pos (by omega)]
    have hbits := pointer_bits label.length (Nat.lt_succ_of_le hlabel.2)
    by_cases hfit : label.length ≤ 63
    · rw [if_neg (not_not.mpr (hbits.mpr (Nat.lt_succ_of_le hfit))), if_neg (Nat.pos_iff_ne_zero.mp hlabel.1),
        ih hrest (by omega) (by omega) hlabels]
      simp only [List.forall_mem_cons, hfit, true_and]
      rw [show p + 1 + label.length + (wire labels).length - 1 = p + (label.length + (wire labels).length + 1) - 1 by
        omega]
    · rw [if_pos fun h => hfit (Nat.le_of_lt_succ (hbits.mp h)), if_neg fun h => hfit (h label List.mem_cons_self)]

variable (hfit : ∀ l ∈ labels, 0 < l.length ∧ l.length ≤ 63)
include hfit

/-- A name with short labels is followed as long as there are steps. -/
theorem copyScan_wire {k p len : ℕ} (hwire : Holds b p (wire labels)) (hroom : p + (wire labels).length ≤ n) :
    (copyScan n k p len).val b = if labels.length < k then some (len + (wire labels).length - 1) else none := by
  induction labels generalizing k p len with
  | nil =>
    cases k with
    | zero => rfl
    | succ k =>
      have hzero := (holds_cons.mp hwire).1
      rw [copyScan]
      simp [hzero]
  | cons label labels ih =>
    cases k with
    | zero => rfl
    | succ k =>
      obtain ⟨hlabel, hlabels⟩ := List.forall_mem_cons.mp hfit
      rw [wire_cons] at hwire hroom ⊢
      obtain ⟨hlen, hrest⟩ := holds_cons.mp hwire
      obtain ⟨-, hrest⟩ := holds_append.mp hrest
      rw [List.length_cons, List.length_append] at hroom
      rw [List.length_cons, List.length_cons, List.length_append]
      have hpos : 0 < (wire labels).length := Nat.zero_lt_of_lt (length_lt_wire_length labels)
      rw [copyScan]
      simp only [val_ite, val_rd_bind, val_pure, hlen, toNat_labelLength (by omega : label.length ≤ 255)]
      rw [if_neg (Nat.pos_iff_ne_zero.mp hlabel.1),
        if_neg (not_not.mpr ((pointer_bits label.length (by omega)).mpr (by omega))), if_neg (by omega),
        ih hlabels hrest (by omega)]
      simp only [Nat.add_lt_add_iff_right]
      rw [show len + 1 + label.length + (wire labels).length - 1 =
        len + (label.length + (wire labels).length + 1) - 1 by omega]

theorem copyLabels_wire {k p : ℕ} {dst : List UInt8} (hwire : Holds b p (wire labels)) (hk : labels.length < k) :
    (copyLabels k p dst).val b =
      some (dst ++ labels.flatMap fun label => ngxStrlow label ++ [46]).dropLast := by
  induction labels generalizing k p dst with
  | nil =>
    obtain ⟨k, rfl⟩ := Nat.exists_eq_add_one.mpr hk
    have hzero := (holds_cons.mp hwire).1
    rw [copyLabels]
    simp [hzero]
  | cons label labels ih =>
    obtain ⟨k, rfl⟩ := Nat.exists_eq_add_one.mpr (Nat.zero_lt_of_lt hk)
    obtain ⟨hlabel, hlabels⟩ := List.forall_mem_cons.mp hfit
    rw [wire_cons] at hwire
    obtain ⟨hlen, hrest⟩ := holds_cons.mp hwire
    obtain ⟨hbytes, hrest⟩ := holds_append.mp hrest
    rw [List.length_cons] at hk
    rw [copyLabels]
    simp only [val_ite, val_rd_bind, val_bytesFrom_bind, val_pure, hlen,
      toNat_labelLength (by omega : label.length ≤ 255)]
    rw [if_neg (Nat.pos_iff_ne_zero.mp hlabel.1),
      if_neg (not_not.mpr ((pointer_bits label.length (by omega)).mpr (by omega))), hbytes,
      ih hlabels hrest (by omega), List.flatMap_cons, List.append_assoc, List.append_assoc, List.append_assoc]

end Reading

theorem dropLast_labels {labels : List (List UInt8)} (hne : labels ≠ []) :
    (labels.flatMap fun label => ngxStrlow label ++ [46]).dropLast = ngxStrlow ([46].intercalate labels) := by
  induction labels with
  | nil => exact absurd rfl hne
  | cons label labels ih =>
    cases labels with
    | nil => simp
    | cons next labels =>
      have hnext := ih (List.cons_ne_nil next labels)
      rw [List.flatMap_cons, List.dropLast_append_of_ne_nil (by simp), hnext, List.intercalate_cons_cons]
      simp [ngxStrlow, ngxTolower]

/-! ### Questions of responses -/

/-- Two bytes of a message. -/
def word (message : List UInt8) (i : ℕ) : ℕ := (message.getD i 0).toNat * 256 + (message.getD (i + 1) 0).toNat

/-- The header of a response that is processed up to its question, with `rest` bytes after the question. -/
structure ResponseHeader (header : List UInt8) (rest : ℕ) (tcp : Bool) : Prop where
  length : header.length = 12
  flags : word header 2 &&& 0xf870 = 0x8000
  whole : ¬(word header 2 &&& 0x0200 ≠ 0 ∧ tcp)
  code : word header 2 &&& 0xf ≤ ngxResolveRefused
  noFormerr : word header 2 &&& 0xf ≠ ngxResolveFormerr
  questions : word header 4 = 1
  answers : word header 6 * 12 ≤ rest

/-- The question of a response passes the checks, and is read as a name. -/
def QuestionReadAs (header question rest : List UInt8) (tcp : Bool) (qtype : ℕ) (name : List UInt8) : Prop :=
  let message := header ++ question ++ rest
  ∃ m, (checkResponse message.length tcp).val (message.getD · 0) = .inr (m, qtype) ∧
    (ngxResolverCopy true 12 message.length).val (message.getD · 0) = some name

/-- A name with at most 127 labels, each of at most 63 bytes. -/
def LabelsFit (name : List UInt8) : Prop :=
  (∀ label ∈ name.splitOn 46, label.length ≤ 63) ∧ (name.splitOn 46).length ≤ 127

instance (name : List UInt8) : Decidable (LabelsFit name) := inferInstanceAs (Decidable (_ ∧ _))

theorem rd16_header {header tail : List UInt8} {i : ℕ} (hi : i + 1 < header.length) :
    (rd16 i).val ((header ++ tail).getD · 0) = word header i := by
  simp only [rd16, val_rd_bind, val_pure, word]
  rw [List.getD_append _ _ _ _ hi, List.getD_append _ _ _ _ (Nat.lt_of_succ_lt hi)]

theorem rd16_holds {b : ℕ → UInt8} {i : ℕ} {hi lo : UInt8} {l : List UInt8} (h : Holds b i (hi :: lo :: l)) :
    (rd16 i).val b = hi.toNat * 256 + lo.toNat := by
  obtain ⟨hfirst, h⟩ := holds_cons.mp h
  simp only [rd16, val_rd_bind, val_pure, hfirst, (holds_cons.mp h).1]

/-- The checks of a response with a question of short labels lead to its answers; with a longer label they fail. -/
theorem checkResponse_question {header rest : List UInt8} {tcp : Bool} {labels : List (List UInt8)} {type : ℕ}
    (hheader : ResponseHeader header rest.length tcp) (hne : labels ≠ []) (hwritten : ∀ l ∈ labels, LabelWritten l)
    (htype : type < 256) :
    let message := header ++ (wire labels ++ querySuffix type) ++ rest
    (∃ m, (checkResponse message.length tcp).val (message.getD · 0) = .inr (m, type)) ↔
      ∀ l ∈ labels, l.length ≤ 63 := by
  intro message
  have hlen : message.length = 12 + ((wire labels).length + 4) + rest.length := by
    simp [message, hheader.length, querySuffix]
    omega
  have hholds : Holds (message.getD · 0) 12 (wire labels ++ querySuffix type) := by
    have h := holds_getD header (wire labels ++ querySuffix type) rest
    rwa [hheader.length] at h
  obtain ⟨hwire, hsuffix⟩ := holds_append.mp hholds
  have hword (i : ℕ) (hi : i + 1 < 12) : (rd16 i).val (message.getD · 0) = word header i := by
    simp only [message, List.append_assoc]
    exact rd16_header (by rw [hheader.length]; exact hi)
  have hcount := length_lt_wire_length labels
  have hquestion := @questionEnd_wire _ message.length labels (message.length + 1) 12 hwire (by omega) (by omega)
    hwritten
  have hpos : 0 < labels.length := List.length_pos_iff.mpr hne
  rw [checkResponse, if_neg (by omega)]
  simp only [val_bind, val_ite, val_pure, hword 0 (by omega), hword 2 (by omega), hword 4 (by omega),
    hword 6 (by omega)]
  rw [if_neg (not_or.mpr ⟨not_not.mpr hheader.flags, by simpa using hheader.whole⟩), if_neg hheader.noFormerr,
    if_neg (not_lt.mpr hheader.code), if_neg (not_not.mpr hheader.questions), hquestion]
  by_cases hfit : ∀ l ∈ labels, l.length ≤ 63
  · rw [if_pos hfit]
    refine iff_of_true ?_ hfit
    have hanswers := hheader.answers
    obtain ⟨j, hj⟩ : ∃ j, (wire labels).length = j + 1 := Nat.exists_eq_add_one.mpr (Nat.zero_lt_of_lt hcount)
    have hend : 12 + (wire labels).length - 1 + 1 = 12 + (wire labels).length := by omega
    have htypeAt : (rd16 (12 + (wire labels).length - 1 + 1)).val (message.getD · 0) = type := by
      rw [hend, rd16_holds hsuffix, UInt8.toNat_ofNat', Nat.mod_eq_of_lt htype]
      simp
    have hclass : (rd16 (12 + (wire labels).length - 1 + 3)).val (message.getD · 0) = 1 := by
      have hend : 12 + (wire labels).length - 1 + 3 = 12 + (wire labels).length + 1 + 1 := by omega
      rw [hend, rd16_holds (holds_cons.mp (holds_cons.mp hsuffix).2).2]
      rfl
    dsimp only
    rw [val_ite, if_neg (by omega), val_ite, if_neg (by omega)]
    simp only [val_bind, val_ite, val_pure, htypeAt, hclass]
    exact ⟨_, rfl⟩
  · rw [if_neg hfit]
    refine iff_of_false (fun h => ?_) hfit
    obtain ⟨m, hm⟩ := h
    cases hm

/-- A question of written labels is read as the name if and only if they fit. -/
theorem questionReadAs_iff {header rest name : List UInt8} {tcp : Bool} {type : ℕ}
    (hheader : ResponseHeader header rest.length tcp) (hwritten : ∀ l ∈ name.splitOn 46, LabelWritten l)
    (htype : type < 256) :
    QuestionReadAs header (wire (name.splitOn 46) ++ querySuffix type) rest tcp type (ngxStrlow name) ↔
      LabelsFit name := by
  have hne := List.splitOn_ne_nil 46 name
  have hcheck := checkResponse_question hheader hne hwritten htype
  have hname : [46].intercalate (name.splitOn 46) = name := List.intercalate_splitOn 46
  rw [QuestionReadAs, LabelsFit]
  generalize name.splitOn 46 = labels at *
  subst hname
  dsimp only at hcheck ⊢
  rw [exists_and_right, hcheck]
  refine and_congr_right fun hfit => ?_
  have hshort : ∀ l ∈ labels, 0 < l.length ∧ l.length ≤ 63 := fun l hl => ⟨(hwritten l hl).1, hfit l hl⟩
  have hholds := holds_getD header (wire labels ++ querySuffix type) rest
  rw [hheader.length] at hholds
  have hwire := (holds_append.mp hholds).1
  have hroom : 12 + (wire labels).length ≤ (header ++ (wire labels ++ querySuffix type) ++ rest).length := by
    simp only [List.length_append, hheader.length]
    omega
  have hcount := length_lt_wire_length labels
  have hpos : 0 < labels.length := List.length_pos_iff.mpr hne
  simp only [ngxResolverCopy, val_bind, val_ite, val_pure]
  rw [copyScan_wire hshort hwire hroom]
  by_cases hfew : labels.length < 128
  · rw [if_pos hfew, Option.isNone_some, if_neg Bool.false_ne_true, if_neg (by simp; omega), if_neg (by simp),
      copyLabels_wire hshort hwire hfew, List.nil_append, dropLast_labels hne]
    exact iff_of_true rfl (Nat.le_of_lt_succ hfew)
  · rw [if_neg hfew, if_pos (by rfl)]
    exact iff_of_false (fun h => by cases h) (by omega)

/-! ### The queries of a name -/

theorem queryHeader_length (ident : ℕ) : (queryHeader ident).length = 12 := rfl

/-- The query for AAAA records asks for the same name. -/
theorem copyQuery_drop {ident ident6 : ℕ} {qname fresh : List UInt8} :
    (copyQuery (queryHeader ident ++ qname ++ querySuffix ngxResolveA) fresh (12 + qname.length + 4) qname.length
      ident6).drop 12 = qname ++ querySuffix ngxResolveAaaa := by
  have hlen : (queryHeader ident ++ qname ++ querySuffix ngxResolveA).length = 12 + qname.length + 4 := by
    simp [queryHeader, querySuffix]
    omega
  have hcopy : (List.take (12 + qname.length + 4) (queryHeader ident ++ qname ++ querySuffix ngxResolveA) ++
      fresh.drop (12 + qname.length + 4)).take (queryHeader ident ++ qname ++ querySuffix ngxResolveA).length =
        queryHeader ident ++ (qname ++ querySuffix ngxResolveA) := by
    rw [List.take_of_length_le hlen.le, List.take_left' rfl, List.append_assoc]
  have hset : 12 + qname.length + 1 - 12 = qname.length + 1 := by omega
  rw [copyQuery, hcopy, List.drop_set, if_neg (by omega), List.drop_set, if_pos (by omega), List.drop_set,
    if_pos (by omega), List.drop_left' (queryHeader_length ident), hset, List.set_append,
    if_neg (by omega), Nat.add_sub_cancel_left]
  rfl

/-- What `ngx_resolver_create_name_query` has built if it returns `NGX_OK`. -/
theorem createNameQuery_ok {alloc ipv6 : Bool} {ident ident6 : ℕ} {fresh name : List UInt8} {q : Query}
    (hname : name.length ≤ 65000) (hok : ngxResolverCreateNameQuery alloc ipv6 ident ident6 fresh name = .ok q) :
    (∀ l ∈ name.splitOn 46, LabelWritten l) ∧
      q.query.drop 12 = wire (name.splitOn 46) ++ querySuffix ngxResolveA ∧
      ∀ query6 ∈ q.query6, query6.drop 12 = wire (name.splitOn 46) ++ querySuffix ngxResolveAaaa := by
  rw [ngxResolverCreateNameQuery] at hok
  cases hput : putName name with
  | none => rw [hput] at hok; dsimp only at hok; split_ifs at hok
  | some qname =>
    obtain ⟨hwritten, hqname⟩ := putName_eq_some_iff.mp hput
    have hne : name ≠ [] := by
      rintro rfl
      cases hput
    have hlen : 1 + name.length + 1 = qname.length := by
      rw [hqname, wire_length_splitOn]
      omega
    have hqlen : (12 + qname.length + 4) % 65536 = 12 + qname.length + 4 := Nat.mod_eq_of_lt (by omega)
    rw [hput, if_pos hne, hlen, hqlen] at hok
    dsimp only at hok
    cases halloc : alloc with
    | false => rw [halloc] at hok; cases hok
    | true =>
      rw [halloc] at hok
      obtain rfl := Created.ok.inj hok
      refine ⟨hwritten, by rw [hqname]; rfl, fun query6 hmem => ?_⟩
      cases ipv6 with
      | false => cases hmem
      | true =>
        obtain rfl := Option.some_inj.mp hmem
        rw [← hqname]
        exact copyQuery_drop

theorem createSrvQuery_ok {alloc : Bool} {ident : ℕ} {name : List UInt8} {q : Query}
    (hok : ngxResolverCreateSrvQuery alloc ident name = .ok q) :
    (∀ l ∈ name.splitOn 46, LabelWritten l) ∧
      q.query.drop 12 = wire (name.splitOn 46) ++ querySuffix ngxResolveSrv := by
  rw [ngxResolverCreateSrvQuery] at hok
  cases hput : putName name with
  | none => rw [hput] at hok; dsimp only at hok; split_ifs at hok
  | some qname =>
    obtain ⟨hwritten, rfl⟩ := putName_eq_some_iff.mp hput
    rw [hput] at hok
    cases alloc with
    | false => cases hok
    | true =>
      obtain rfl := Created.ok.inj hok
      exact ⟨hwritten, rfl⟩

/-- The question of a query of a name, brought back by a response, is read as the name in lower case if and only if
the labels of the name fit. -/
theorem question_read_as_name_iff (name : List UInt8) (hname : name.length ≤ 65000) (header rest : List UInt8)
    (tcp : Bool) (hheader : ResponseHeader header rest.length tcp) :
    (∀ alloc ipv6 ident ident6 fresh q, ngxResolverCreateNameQuery alloc ipv6 ident ident6 fresh name = .ok q →
      (QuestionReadAs header (q.query.drop 12) rest tcp ngxResolveA (ngxStrlow name) ↔ LabelsFit name) ∧
        ∀ query6 ∈ q.query6,
          (QuestionReadAs header (query6.drop 12) rest tcp ngxResolveAaaa (ngxStrlow name) ↔ LabelsFit name)) ∧
      ∀ alloc ident q, ngxResolverCreateSrvQuery alloc ident name = .ok q →
        (QuestionReadAs header (q.query.drop 12) rest tcp ngxResolveSrv (ngxStrlow name) ↔ LabelsFit name) := by
  constructor
  · intro alloc ipv6 ident ident6 fresh q hok
    obtain ⟨hwritten, hquery, hquery6⟩ := createNameQuery_ok hname hok
    refine ⟨?_, fun query6 hmem => ?_⟩
    · rw [hquery]
      exact questionReadAs_iff hheader hwritten (by decide)
    · rw [hquery6 query6 hmem]
      exact questionReadAs_iff hheader hwritten (by decide)
  · intro alloc ident q hok
    obtain ⟨hwritten, hquery⟩ := createSrvQuery_ok hok
    rw [hquery]
    exact questionReadAs_iff hheader hwritten (by decide)

/-- The header of a response without answers. -/
def emptyResponse : List UInt8 := [0, 0, 0x80, 0, 0, 1, 0, 0, 0, 0, 0, 0]

theorem emptyResponse_header : ResponseHeader emptyResponse 0 false where
  length := rfl
  flags := rfl
  whole := fun h => Bool.false_ne_true h.2
  code := by decide
  noFormerr := by decide
  questions := rfl
  answers := le_rfl

theorem question_read_as_name_example :
    [87, 46, 97].length ≤ 65000 ∧ ResponseHeader emptyResponse ([] : List UInt8).length false ∧
      ∀ q, ngxResolverCreateSrvQuery true 0 [87, 46, 97] = .ok q →
        (QuestionReadAs emptyResponse (q.query.drop 12) [] false ngxResolveSrv (ngxStrlow [87, 46, 97]) ↔
          LabelsFit [87, 46, 97]) :=
  ⟨by decide, emptyResponse_header,
    (question_read_as_name_iff [87, 46, 97] (by decide) emptyResponse [] false emptyResponse_header).2 true 0⟩

/-- The query for a label of 64 bytes is built, and its question is not taken back. -/
theorem long_label_not_read_back :
    ∃ q, ngxResolverCreateNameQuery true false 0 0 [] (List.replicate 64 97) = .ok q ∧
      ¬QuestionReadAs emptyResponse (q.query.drop 12) [] false ngxResolveA (ngxStrlow (List.replicate 64 97)) := by
  have hlabels : ∀ l ∈ (List.replicate 64 (97 : UInt8)).splitOn 46, LabelWritten l := by decide
  have hput := putName_eq_some_iff.mpr ⟨hlabels, rfl⟩
  refine ⟨_, by rw [ngxResolverCreateNameQuery, hput]; rfl, fun h => ?_⟩
  have hfit := (questionReadAs_iff emptyResponse_header hlabels (by decide)).mp h
  exact absurd (hfit.1 (List.replicate 64 97) (by decide)) (by decide)

end NginxDtls.Dns
