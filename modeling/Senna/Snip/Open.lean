/-
# The snippet object

`sen_snip_open` makes a snippet object without keywords and `sen_snip_add_cond` registers
one keyword with its tags. The arrays `snip_result` and `tag_result` hold what the last
`sen_snip_exec` recorded; only the entries below `snip_count` and `tag_count` are kept in
the model.
-/

import Senna.Snip.Tunedbm

namespace Senna.Snip

/-- `MAX_SNIP_TAG_COUNT` -/
def maxSnipTagCount : Nat := 512

/-- `MAX_SNIP_COND_COUNT` -/
def maxSnipCondCount : Nat := 32

/-- `MAX_SNIP_RESULT_COUNT` -/
def maxSnipResultCount : Nat := 16

/-- The bits `SEN_SNIP_NORMALIZE`, `SEN_SNIP_COPY_TAG` and `SEN_SNIP_SKIP_LEADING_SPACES`. -/
structure SnipFlags where
  normalize : Bool
  copyTag : Bool
  skipLeadingSpaces : Bool
  deriving DecidableEq, Repr

/-- `snip_cond` with the tags. A tag is the bytes given by its pointer and length. -/
structure TaggedCond where
  cond : SnipCond
  opentag : List UInt8
  closetag : List UInt8

/-- `_snip_tag_result`; `cond` is the index of the condition. -/
structure TagResult where
  startOffset : Nat
  endOffset : Nat
  cond : Nat
  deriving DecidableEq, Repr

/-- `_snip_result`. -/
structure SnipResult where
  startOffset : Nat
  endOffset : Nat
  firstTagResultIdx : Nat
  lastTagResultIdx : Nat
  tagCount : Nat
  deriving DecidableEq, Repr

/-- `sen_snip_mapping *`: `NULL` or `(sen_snip_mapping *) -1`, or any other pointer. -/
inductive SnipMapping where
  | null
  | htmlEscape
  | other
  deriving DecidableEq, Repr

/-- `sen_snip`. `string` and `text` are the text of the last `sen_snip_exec` and
`snip->nstr`. -/
structure SenSnip where
  encoding : SenEncoding
  flags : SnipFlags
  width : Nat
  maxResults : Nat
  defaultopentag : List UInt8
  defaultclosetag : List UInt8
  mapping : SnipMapping
  conds : List TaggedCond
  string : List UInt8
  text : Option Text
  snipResult : List SnipResult
  tagResult : List TagResult
  maxTaggedLen : Nat

/-- `sen_snip_open`, without the failures of `SEN_MALLOC`. -/
def senSnipOpen (encoding : SenEncoding) (flags : SnipFlags) (width maxResults : Nat)
    (defaultopentag defaultclosetag : List UInt8) (mapping : SnipMapping) : Option SenSnip :=
  if maxResults > maxSnipResultCount ∨ maxResults = 0 then none
  else some {
    encoding := encoding
    flags := flags
    width := width
    maxResults := maxResults
    defaultopentag := defaultopentag
    defaultclosetag := defaultclosetag
    mapping := mapping
    conds := []
    string := []
    text := none
    snipResult := []
    tagResult := []
    maxTaggedLen := 0 }

/-- The number of bytes of the keyword of a condition. -/
def Keyword.blen : Keyword → Nat
  | .opened norm => norm.length
  | _ => 0

/-- `sen_snip_add_cond`, without the failures of `SEN_MALLOC` for the tags. `nstrOpen` opens
a keyword as the flags of the snippet object say; a tag is `none` for `NULL`. -/
def senSnipAddCond (nstrOpen : List UInt8 → Option (List UInt8)) (snip : SenSnip)
    (keyword : List UInt8) (opentag closetag : Option (List UInt8)) : SenRc × SenSnip :=
  if keyword = [] ∨ maxSnipCondCount ≤ snip.conds.length then (.invalidArgument, snip)
  else
    match senSnipCondInit nstrOpen keyword with
    | (.success, cond) =>
        if cond.keyword.blen > snip.width then (.invalidArgument, snip)
        else (.success, { snip with
          conds := snip.conds ++ [{
            cond := cond
            opentag := opentag.getD snip.defaultopentag
            closetag := closetag.getD snip.defaultclosetag }] })
    | (rc, _) => (rc, snip)

/-- A keyword that can be registered in a snippet of the given width. -/
structure Usable (nstrOpen : List UInt8 → Option (List UInt8)) (width : Nat)
    (keyword : List UInt8) : Prop where
  given : keyword ≠ []
  init : (senSnipCondInit nstrOpen keyword).1 = .success
  fits : (senSnipCondInit nstrOpen keyword).2.keyword.blen ≤ width

/-- The normalized keyword that a condition searches. -/
def keywordOf (nstrOpen : List UInt8 → Option (List UInt8)) (keyword : List UInt8) : Keyword :=
  (senSnipCondInit nstrOpen keyword).2.keyword

/-- The keywords registered so far. -/
def SenSnip.keywords (snip : SenSnip) : List Keyword := snip.conds.map fun c => c.cond.keyword

/-- **Registering a keyword.** While there is room a usable keyword becomes the last one. -/
theorem Usable.addCond {nstrOpen : List UInt8 → Option (List UInt8)} {snip : SenSnip}
    {keyword : List UInt8} (h : Usable nstrOpen snip.width keyword)
    (hroom : snip.conds.length < maxSnipCondCount) (opentag closetag : Option (List UInt8)) :
    ∃ snip', senSnipAddCond nstrOpen snip keyword opentag closetag = (.success, snip') ∧
      snip'.keywords = snip.keywords ++ [keywordOf nstrOpen keyword] ∧
      snip'.width = snip.width := by
  have hpair : senSnipCondInit nstrOpen keyword =
      (.success, (senSnipCondInit nstrOpen keyword).2) := Prod.ext h.init rfl
  unfold senSnipAddCond
  rw [if_neg (not_or.mpr ⟨h.given, Nat.not_le.mpr hroom⟩), hpair]
  simp only [if_neg (Nat.not_lt.mpr h.fits)]
  refine ⟨_, rfl, ?_, rfl⟩
  simp only [SenSnip.keywords, List.map_append, List.map_cons, List.map_nil, keywordOf]

end Senna.Snip
