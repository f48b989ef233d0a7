import NginxDtls.LocationLimits

/-! Which sets of locations are looked up as they should be: those in which every name is at most 255 bytes longer than the
longest name of an inclusive location that it begins with. -/

namespace NginxDtls.Locations

variable {Conf : Type}

/-! ### The names of a level -/

/-- Every name is at most 255 bytes longer than another one that it begins with and that is of an inclusive location, or has at
most 255 bytes. -/
def Fits (S : CoreLocConf Conf → Prop) (pre : ℕ) : Prop :=
  ∀ l, S l → l.name.length ≤ pre + 255 ∨
    ∃ m, S m ∧ m.exactMatch = false ∧ m.name <+: l.name ∧ m.name ≠ l.name ∧ l.name.length ≤ m.name.length + 255

/-- An inclusive location is not beside another one whose name begins with its name. -/
theorem Nested.eq_of_prefix {pre : List UInt8} {forest : List (LocationQueue Conf)} {q r : LocationQueue Conf}
    (h : Nested pre forest) (hq : q ∈ forest) (hr : r ∈ forest) (hsome : q.inclusive ≠ none) (hbegins : q.name <+: r.name) :
    q = r := by
  obtain ⟨hsorted, -, -⟩ := h
  have hboth : forest.Pairwise fun a b => Beside a b ∨ Beside b a := hsorted.imp Or.inl
  have hsymm : Std.Symm fun a b : LocationQueue Conf => Beside a b ∨ Beside b a := ⟨fun _ _ => Or.symm⟩
  by_contra hne
  rcases hboth.forall hq hr hne with ⟨-, hnot⟩ | ⟨hlt, -⟩
  · exact hnot hsome hbegins
  · exact not_lt.mpr (place_le_of_begins hbegins) hlt

theorem fits_of_short {pre : List UInt8} {forest : List (LocationQueue Conf)} (hnested : Nested pre forest)
    (hshort : Short pre forest) : Fits (Holds · forest) pre.length := by
  intro l hl
  induction hl generalizing pre with
  | @own q forest hmem hown =>
      obtain ⟨-, hfine, -⟩ := hnested
      obtain ⟨hlength, -⟩ := hshort
      rw [(hfine q hmem).own_name hown]
      exact Or.inl (hlength q hmem)
  | @inner q forest hmem hholds ih =>
      obtain ⟨-, hfine, hbelow⟩ := hnested
      obtain ⟨-, hshort⟩ := hshort
      obtain ⟨hbegins, hlt⟩ := longer_of_holds (hbelow q hmem) hholds
      right
      rcases ih (hbelow q hmem) (hshort q hmem) with hle | ⟨m, hm, hrest⟩
      · obtain ⟨i, hinclusive⟩ : ∃ i, q.inclusive = some i := Option.ne_none_iff_exists'.mp fun hnone => by
          rw [(hfine q hmem).leaf hnone] at hholds
          exact not_holds_nil hholds
        obtain ⟨hname, hkind⟩ := (hfine q hmem).inclusive i hinclusive
        refine ⟨i, .own hmem (Or.inr hinclusive), hkind, hname ▸ hbegins, fun heq => ?_, hname ▸ hle⟩
        rw [← hname, heq] at hlt
        exact lt_irrefl _ hlt
      · exact ⟨m, .inner hmem hm, hrest⟩

theorem short_of_fits {pre : List UInt8} {forest : List (LocationQueue Conf)} (hnested : Nested pre forest)
    (hfits : Fits (Holds · forest) pre.length) : Short pre forest := by
  induction hnested with
  | @mk pre forest hsorted hfine hbelow ih =>
      have hnested : Nested pre forest := ⟨hsorted, hfine, hbelow⟩
      -- an inclusive location with a part of the name of a location at or below `q` is at or below `q`
      have habove : ∀ q ∈ forest, ∀ l : CoreLocConf Conf, q.name <+: l.name → (q.inclusive = none → l.name = q.name) → ∀ m, Holds m forest →
          m.exactMatch = false → m.name <+: l.name → m.name ≠ l.name → q.inclusive = some m ∨ Holds m q.list := by
        intro q hq l hql hleaf m hm hkind hml hne
        obtain ⟨r, hr, hrm, hown⟩ := hnested.root hm
        have hsome : r.inclusive ≠ none := by
          rcases hown with hown | ⟨hsome, -⟩
          · intro hnone
            have hexact : r.exact = some m := hown.resolve_right fun heq => by
              rw [hnone] at heq
              cases heq
            exact Bool.false_ne_true (hkind.symm.trans ((hfine r hr).exact m hexact).2)
          · exact hsome
        have hrq : r = q := by
          rcases List.prefix_or_prefix_of_prefix (hrm.trans hml) hql with hbegins | hbegins
          · exact hnested.eq_of_prefix hr hq hsome hbegins
          · by_cases hnone : q.inclusive = none
            · have hlr : l.name <+: r.name := hleaf hnone ▸ hbegins
              have hlm := hlr.trans hrm
              exact absurd (hml.eq_of_length_le hlm.length_le) hne
            · exact (hnested.eq_of_prefix hq hr hnone hbegins).symm
        subst hrq
        rcases hown with hown | ⟨-, hholds, -⟩
        · refine Or.inl (hown.resolve_left fun hexact => ?_)
          exact Bool.false_ne_true (hkind.symm.trans ((hfine r hr).exact m hexact).2)
        · exact Or.inr hholds
      refine ⟨fun q hq => ?_, fun q hq => ih q hq fun l hl => ?_⟩
      · obtain ⟨l, hl⟩ := (hfine q hq).exists_own
        have hname := (hfine q hq).own_name hl
        rcases hfits l (.own hq hl) with hle | ⟨m, hm, hkind, hml, hne, -⟩
        · rwa [hname] at hle
        · rcases habove q hq l (hname ▸ List.prefix_refl _) (fun _ => hname) m hm hkind hml hne with hown | hholds
          · exact absurd (((hfine q hq).inclusive m hown).1.trans hname.symm) hne
          · have hlt := (longer_of_holds (hbelow q hq) hholds).2
            rw [← hname] at hlt
            exact absurd hml.length_le (not_le.mpr hlt)
      · obtain ⟨hbegins, hlt⟩ := longer_of_holds (hbelow q hq) hl
        have hsome : q.inclusive ≠ none := fun hnone => by
          rw [(hfine q hq).leaf hnone] at hl
          exact not_holds_nil hl
        rcases hfits l (.inner hq hl) with hle | ⟨m, hm, hkind, hml, hne, hle⟩
        · have hinside := (hfine q hq).inside.length_le
          exact Or.inl (by omega)
        · rcases habove q hq l hbegins (fun hnone => absurd hnone hsome) m hm hkind hml hne with hown | hholds
          · rw [((hfine q hq).inclusive m hown).1] at hle
            exact Or.inl hle
          · exact Or.inr ⟨m, hholds, hkind, hml, hne, hle⟩

/-! ### The lookup -/

/-- The tree of a level, with the lists that it is built for. -/
theorem staticLocations_spec {confs : List (CoreLocConf Conf)} (h : Level confs) :
    ∃ forest tree, staticLocations confs = some tree ∧ Builds 0 forest tree ∧ Nested [] forest ∧
      ∀ l, Holds l forest ↔ l ∈ confs := by
  have hperm := ngxQueueSort_perm ngxHttpCmpLocations (confs.map ngxHttpAddLocation)
  rw [staticLocations, ngxHttpInitStaticLocationTrees]
  split
  · rename_i hempty
    rw [List.isEmpty_iff.mp hempty] at hperm
    have hnil : confs = [] := List.map_eq_nil_iff.mp (List.nil_perm.mp hperm)
    refine ⟨[], .null, rfl, .null, nested_nil [], fun l => ?_⟩
    rw [hnil]
    exact ⟨fun hl => absurd hl not_holds_nil, fun hl => absurd hl List.not_mem_nil⟩
  · have hmade : ∀ q ∈ ngxQueueSort ngxHttpCmpLocations (confs.map ngxHttpAddLocation), Made q := fun q hq => by
      obtain ⟨l, hl, rfl⟩ := List.mem_map.mp (hperm.mem_iff.mp hq)
      exact addLocation_made (h.static l hl)
    obtain ⟨joined, hjoin, hall, hsorted, hown⟩ := join_spec hmade (sorted_before h)
    have hflat : Flat [] joined := ⟨hall, hsorted, fun q hq => ⟨List.nil_prefix, (hall q hq).ne⟩⟩
    have hlisted := createLocationsList_listed hflat
    rw [hjoin]
    refine ⟨_, _, rfl, createLocationsTree_builds _ 0, hlisted.nested, fun l => ?_⟩
    rw [hlisted.holds l, hown l]
    constructor
    · rintro ⟨q, hq, hl⟩
      obtain ⟨m, hm, rfl⟩ := List.mem_map.mp (hperm.mem_iff.mp hq)
      rwa [(addLocation_own (h.static m hm)).mp hl]
    · intro hl
      exact ⟨ngxHttpAddLocation l, hperm.mem_iff.mpr (List.mem_map_of_mem hl), (addLocation_own (h.static l hl)).mpr rfl⟩

/-- The search is right for every address exactly if no name is too long. -/
theorem longest_prefix_iff {confs : List (CoreLocConf Conf)} (h : Level confs) :
    ∃ tree, staticLocations confs = some tree ∧
      ((∀ uri, uri ≠ [] → 0 ∉ uri → ∀ locConf,
        Right (· ∈ confs) uri .declined locConf (ngxHttpCoreFindStaticLocation tree uri locConf)) ↔ Fits (· ∈ confs) 0) := by
  obtain ⟨forest, tree, htree, hbuilds, hnested, hholds⟩ := staticLocations_spec h
  have hsame : (Holds · forest) = (· ∈ confs) := funext fun l => propext (hholds l)
  have hredirect : NoRedirect forest := fun l hl => (h.static l ((hholds l).mp hl)).autoRedirect
  refine ⟨tree, htree, ?_⟩
  constructor
  · intro hright
    rcases hnested.short_or_long with hshort | hlong
    · exact hsame ▸ fits_of_short hnested hshort
    · obtain ⟨l, w, u, hl, -, hw, hlength, -, hnul, hwrong⟩ := findLoop_wrong hbuilds rfl hnested hredirect hlong
      have hconf : ∀ l m, l ∈ confs → m ∈ confs → l.locConf = m.locConf → l = m := fun l m hl hm heq =>
        List.inj_on_of_nodup_map h.confs hl hm heq
      have hne : u ≠ [] := List.ne_nil_of_length_pos (by omega)
      have hwrong' := hwrong .declined l.locConf (by decide)
      rw [hsame] at hwrong'
      exact absurd (hright u hne hnul l.locConf) (hwrong'.not_right hconf)
  · intro hfits uri huri hnul locConf
    rw [← hsame] at hfits
    have hright := @findLoop_right _ _ _ _ hbuilds [] uri .declined locConf rfl hnested (short_of_fits hnested hfits) hredirect
      huri hnul
    rwa [hsame] at hright

/-- An inclusive location and an exact one. -/
def twoLocations : List (CoreLocConf ℕ) :=
  [⟨[47], false, false, false, false, false, 1⟩, ⟨[47, 97], true, false, false, false, false, 2⟩]

theorem twoLocations_level : Level twoLocations where
  static := by
    intro l hl
    simp only [twoLocations, List.mem_cons, List.not_mem_nil, or_false] at hl
    rcases hl with rfl | rfl
    · exact ⟨rfl, rfl, rfl, rfl, by decide, by decide⟩
    · exact ⟨rfl, rfl, rfl, rfl, by decide, by decide⟩
  distinct := by simp [twoLocations]
  confs := by decide

theorem longest_prefix_two : ∃ tree, staticLocations twoLocations = some tree ∧
    ((∀ uri, uri ≠ [] → 0 ∉ uri → ∀ locConf,
      Right (· ∈ twoLocations) uri .declined locConf (ngxHttpCoreFindStaticLocation tree uri locConf)) ↔
        Fits (· ∈ twoLocations) 0) := longest_prefix_iff twoLocations_level

/-- An inclusive location with a name of 256 bytes. -/
def longLocation : CoreLocConf ℕ := ⟨List.replicate 256 97, false, false, false, false, false, 1⟩

theorem createLocationsTree_single (exact inclusive : Option (CoreLocConf Conf)) (name : List UInt8) (pre : ℕ) :
    ngxHttpCreateLocationsTree [.mk exact inclusive name []] pre = .node .null .null .null exact inclusive
      ((exact.map CoreLocConf.autoRedirect).getD false || (inclusive.map CoreLocConf.autoRedirect).getD false)
      (UInt8.ofNat (name.length - pre)) (name.drop pre) := by
  rw [ngxHttpCreateLocationsTree]
  rfl

/-- The length of its node is zero. -/
theorem longLocation_tree : staticLocations [longLocation] =
    some (.node .null .null .null none (some longLocation) false 0 longLocation.name) := by
  have hjoin : ∀ q : LocationQueue ℕ, ngxHttpJoinExactLocations [q] = some [q] := fun q => by
    simp [ngxHttpJoinExactLocations]
  have hlist : ∀ q : LocationQueue ℕ, ngxHttpCreateLocationsList [q] = [q] := fun q => by
    simp [ngxHttpCreateLocationsList]
  have hlength : longLocation.name.length = 256 := List.length_replicate
  have htree := createLocationsTree_single none (some longLocation) longLocation.name 0
  have hqueue : ngxQueueSort ngxHttpCmpLocations ([longLocation].map ngxHttpAddLocation) =
      [.mk none (some longLocation) longLocation.name []] := rfl
  rw [staticLocations, hqueue, ngxHttpInitStaticLocationTrees, hjoin, Option.bind_eq_bind, Option.bind_some, hlist, htree]
  rw [hlength]
  rfl

theorem longLocation_level : Level [longLocation] where
  static := fun l hl => by
    rw [List.mem_singleton.mp hl]
    have hne : longLocation.name ≠ [] := List.ne_nil_of_length_pos (List.length_replicate ▸ Nat.succ_pos 255)
    have hnul : 0 ∉ longLocation.name := fun hmem => absurd (List.eq_of_mem_replicate hmem) (by decide)
    exact ⟨rfl, rfl, rfl, rfl, hne, hnul⟩
  distinct := List.pairwise_singleton ..
  confs := List.nodup_singleton _

/-- It is found for an address that does not begin with its name. -/
theorem longName_found : Level [longLocation] ∧ ∃ tree, staticLocations [longLocation] = some tree ∧
    ngxHttpCoreFindStaticLocation tree [98] 0 = (.again, 1) ∧
      ¬Right (· ∈ [longLocation]) [98] .declined 0 (ngxHttpCoreFindStaticLocation tree [98] 0) := by
  have hfind : ngxHttpCoreFindStaticLocation (.node .null .null .null none (some longLocation) false 0 longLocation.name) [98] 0 =
      (.again, 1) := rfl
  have hname : longLocation.name.length = 256 := List.length_replicate
  refine ⟨longLocation_level, _, longLocation_tree, hfind, ?_⟩
  rw [hfind]
  rintro (⟨l, -, -, -, hresult⟩ | ⟨-, ⟨l, ⟨hl, -, hbegins, -⟩, -⟩ | ⟨-, hresult⟩⟩)
  · cases hresult
  · rw [List.mem_singleton.mp hl] at hbegins
    exact absurd hbegins.length_le (by rw [hname]; decide)
  · cases hresult

end NginxDtls.Locations
