/-! # ASCII letters under other letters

Canonical decomposition turns a letter with marks into its base and the marks. What is left of a
character when the combining marks from U+0300 to U+036F are dropped, the letters without a
decomposition are spelled out and everything else outside ASCII is dropped, depends on the
character alone, so it is a table.
-/

namespace StoryFlow.Text

/-- Each ASCII spelling with the characters that are read so. -/
def spellings : List (String × String) :=
  [("A", "ÀÁÂÃÄÅĀĂĄǍǞǠǺȀȂȦḀẠẢẤẦẨẪẬẮẰẲẴẶ\u212b"), ("a", "àáâãäåāăąǎǟǡǻȁȃȧḁạảấầẩẫậắằẳẵặ"),
   ("AE", "ÆǢǼ"), ("ae", "æǣǽ"), ("B", "ḂḄḆ"), ("b", "ḃḅḇ"), ("C", "ÇĆĈĊČḈ"), ("c", "çćĉċčḉ"),
   ("D", "ÐĎĐḊḌḎḐḒ"), ("d", "ðďđḋḍḏḑḓ"), ("E", "ÈÉÊËĒĔĖĘĚȄȆȨḔḖḘḚḜẸẺẼẾỀỂỄỆ"),
   ("e", "èéêëēĕėęěȅȇȩḕḗḙḛḝẹẻẽếềểễệ"), ("F", "Ḟ"), ("f", "ḟ"), ("G", "ĜĞĠĢǦǴḠ"), ("g", "ĝğġģǧǵḡ"),
   ("H", "ĤȞḢḤḦḨḪ"), ("h", "ĥȟḣḥḧḩḫẖ"), ("I", "ÌÍÎÏĨĪĬĮİǏȈȊḬḮỈỊ"), ("i", "ìíîïĩīĭįıǐȉȋḭḯỉị"),
   ("J", "Ĵ"), ("j", "ĵǰ"), ("K", "ĶǨḰḲḴ\u212a"), ("k", "ķǩḱḳḵ"), ("L", "ĹĻĽŁḶḸḺḼ"),
   ("l", "ĺļľłḷḹḻḽ"), ("M", "ḾṀṂ"), ("m", "ḿṁṃ"), ("N", "ÑŃŅŇǸṄṆṈṊ"), ("n", "ñńņňǹṅṇṉṋ"),
   ("O", "ÒÓÔÕÖØŌŎŐƠǑǪǬǾȌȎȪȬȮȰṌṎṐṒỌỎỐỒỔỖỘỚỜỞỠỢ"), ("o", "òóôõöøōŏőơǒǫǭǿȍȏȫȭȯȱṍṏṑṓọỏốồổỗộớờởỡợ"),
   ("OE", "Œ"), ("oe", "œ"), ("P", "ṔṖ"), ("p", "ṕṗ"), ("R", "ŔŖŘȐȒṘṚṜṞ"), ("r", "ŕŗřȑȓṙṛṝṟ"),
   ("S", "ŚŜŞŠȘṠṢṤṦṨ"), ("s", "śŝşšșṡṣṥṧṩ"), ("ss", "ß"), ("T", "ŢŤȚṪṬṮṰ"), ("t", "ţťțṫṭṯṱẗ"),
   ("TH", "Þ"), ("th", "þ"), ("U", "ÙÚÛÜŨŪŬŮŰŲƯǓǕǗǙǛȔȖṲṴṶṸṺỤỦỨỪỬỮỰ"),
   ("u", "ùúûüũūŭůűųưǔǖǘǚǜȕȗṳṵṷṹṻụủứừửữự"), ("V", "ṼṾ"), ("v", "ṽṿ"), ("W", "ŴẀẂẄẆẈ"),
   ("w", "ŵẁẃẅẇẉẘ"), ("X", "ẊẌ"), ("x", "ẋẍ"), ("Y", "ÝŶŸȲẎỲỴỶỸ"), ("y", "ýÿŷȳẏẙỳỵỷỹ"),
   ("Z", "ŹŻŽẐẒẔ"), ("z", "źżžẑẓẕ"), (";", "\u037e"), ("<", "\u226e"), ("=", "\u2260"),
   (">", "\u226f"), ("\x60", "\u1fef")]

/-- The ASCII spelling of a character; characters without one have an empty spelling. -/
def spelling (c : Char) : List Char :=
  if c.toNat < 0x80 then [c]
  else (spellings.find? (fun row => row.2.toList.contains c)).elim [] (fun row => row.1.toList)

/-- The ASCII rendering of a text. -/
def transliterate (cs : List Char) : List Char :=
  cs.flatMap spelling

end StoryFlow.Text
