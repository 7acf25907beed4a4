import ScopeLint.Text.Ranges

/-! Full case mapping of texts. One character may become several, and the lower case of a capital
sigma depends on its neighbours: it is final after a letter and before none. -/
namespace ScopeLint.Text

/-- Runs of code points that are all moved by `shift`. A run has a first one and a number of them, in
steps of `step`. -/
structure CaseRuns where
  step : Nat
  shift : Int
  runs : List (Nat × Nat)

def CaseRuns.maps (r : CaseRuns) (n : Nat) : Bool :=
  r.runs.any fun run => run.1 ≤ n && n < run.1 + r.step * run.2 && (n - run.1) % r.step == 0

def CaseRuns.ofPair (p : Nat × Nat) : CaseRuns := ⟨1, p.2 - p.1, [(p.1, 1)]⟩

def CaseRuns.back (r : CaseRuns) : CaseRuns :=
  ⟨r.step, -r.shift, r.runs.map fun run => ((run.1 + r.shift).toNat, run.2)⟩

/-- So many code points from `first` on become those from `head` on, each with `tail` after it. -/
structure Expansion where
  first : Nat
  number : Nat
  head : Nat
  tail : List Nat

def Expansion.maps (e : Expansion) (n : Nat) : Bool := e.first ≤ n && n < e.first + e.number

/-- The image of a code point: first the expansions, then the runs, else itself. -/
def mapCase (expansions : List Expansion) (runs : List CaseRuns) (c : Char) : List Char :=
  match expansions.find? (·.maps c.toNat) with
  | some e => ((c.toNat - e.first + e.head) :: e.tail).map Char.ofNat
  | none =>
    match runs.find? (·.maps c.toNat) with
    | some r => [Char.ofNat (c.toNat + r.shift).toNat]
    | none => [c]

def bothWays : List CaseRuns :=
  [⟨1, -32, [(97, 26), (224, 23), (248, 7), (945, 17), (963, 9), (1072, 32), (65345, 26),
   (71872, 32), (93792, 32)]⟩, ⟨2, -1, [(257, 24), (307, 3), (314, 8), (331, 23), (378, 3),
   (387, 2), (392, 1), (396, 1), (402, 1), (409, 1), (417, 3), (424, 1), (429, 1), (432, 1),
   (436, 2), (441, 1), (445, 1), (462, 8), (479, 9), (501, 1), (505, 20), (547, 9), (572, 1),
   (578, 1), (583, 5), (881, 2), (887, 1), (985, 12), (1016, 1), (1019, 1), (1121, 17), (1163, 27),
   (1218, 7), (1233, 48), (7681, 75), (7841, 48), (8580, 1), (11361, 1), (11368, 3), (11379, 1),
   (11382, 1), (11393, 50), (11500, 2), (11507, 1), (42561, 23), (42625, 14), (42787, 7),
   (42803, 31), (42874, 2), (42879, 5), (42892, 1), (42897, 2), (42903, 10), (42933, 8), (42952, 2),
   (42961, 1), (42967, 2), (42998, 1)]⟩, ⟨1, 130, [(414, 1), (891, 3)]⟩, ⟨1, -2, [(454, 1),
   (457, 1), (460, 1), (499, 1)]⟩, ⟨1, 10815, [(575, 2)]⟩, ⟨1, -205, [(598, 2), (608, 1)]⟩,
   ⟨1, 42308, [(614, 1), (618, 1)]⟩, ⟨1, -211, [(617, 1), (623, 1)]⟩, ⟨1, -218, [(640, 1), (643, 1),
   (648, 1)]⟩, ⟨1, -217, [(650, 2)]⟩, ⟨1, -37, [(941, 3)]⟩, ⟨1, -64, [(972, 1), (68800, 51)]⟩,
   ⟨1, -63, [(973, 2)]⟩, ⟨1, -8, [(983, 1), (5112, 6)]⟩, ⟨1, 7, [(1010, 1), (8165, 1)]⟩,
   ⟨1, -80, [(1104, 16)]⟩, ⟨1, -48, [(1377, 38), (11312, 48)]⟩, ⟨1, 3008, [(4304, 43), (4349, 3)]⟩,
   ⟨1, 8, [(7936, 8), (7952, 6), (7968, 8), (7984, 8), (8000, 6), (8032, 8), (8112, 2), (8144, 2),
   (8160, 2)]⟩, ⟨2, 8, [(8017, 4)]⟩, ⟨1, 74, [(8048, 2)]⟩, ⟨1, 86, [(8050, 4)]⟩,
   ⟨1, 100, [(8054, 2)]⟩, ⟨1, 128, [(8056, 2)]⟩, ⟨1, 112, [(8058, 2)]⟩, ⟨1, 126, [(8060, 2)]⟩,
   ⟨1, -16, [(8560, 16)]⟩, ⟨1, -26, [(9424, 26)]⟩, ⟨1, -7264, [(11520, 38), (11559, 1),
   (11565, 1)]⟩, ⟨1, -38864, [(43888, 80)]⟩, ⟨1, -40, [(66600, 40), (66776, 36)]⟩,
   ⟨1, -39, [(66967, 11), (66979, 15), (66995, 7), (67003, 2)]⟩, ⟨1, -34, [(125218, 34)]⟩] ++ [
   (255, 376), (384, 579), (405, 502), (410, 573), (447, 503), (477, 398), (592, 11375),
   (593, 11373), (594, 11376), (595, 385), (596, 390), (601, 399), (603, 400), (604, 42923),
   (609, 42924), (611, 404), (613, 42893), (616, 407), (619, 11362), (620, 42925), (625, 11374),
   (626, 413), (629, 415), (637, 11364), (642, 42949), (647, 42929), (649, 580), (652, 581),
   (658, 439), (669, 42930), (670, 42928), (940, 902), (1011, 895), (1231, 1216), (7545, 42877),
   (7549, 11363), (7566, 42950), (8526, 8498), (11365, 570), (11366, 574), (42900, 42948),
   (43859, 42931)].map .ofPair

def upperRuns : List CaseRuns :=
  bothWays ++
  [⟨1, -1, [(453, 1), (456, 1), (459, 1), (498, 1)]⟩, ⟨1, -6242, [(7299, 2)]⟩] ++ [
   (181, 924), (305, 73), (383, 83), (837, 921), (962, 931), (976, 914), (977, 920), (981, 934),
   (982, 928), (1008, 922), (1009, 929), (1013, 917), (7296, 1042), (7297, 1044), (7298, 1054),
   (7301, 1058), (7302, 1066), (7303, 1122), (7304, 42570), (7835, 7776), (8126, 921)].map .ofPair

def lowerRuns : List CaseRuns :=
  bothWays.map .back ++
  [⟨1, 1, [(453, 1), (456, 1), (459, 1), (498, 1)]⟩, ⟨1, -8, [(8072, 8), (8088, 8), (8104, 8)]⟩,
   ⟨1, -9, [(8124, 1), (8140, 1), (8188, 1)]⟩] ++ [
   (1012, 952), (7838, 223), (8486, 969), (8490, 107), (8491, 229)].map .ofPair

def upperExpansions : List Expansion :=
  [⟨223, 1, 83, [83]⟩, ⟨329, 1, 700, [78]⟩, ⟨496, 1, 74, [780]⟩, ⟨912, 1, 921, [776, 769]⟩,
   ⟨944, 1, 933, [776, 769]⟩, ⟨1415, 1, 1333, [1362]⟩, ⟨7830, 1, 72, [817]⟩, ⟨7831, 1, 84, [776]⟩,
   ⟨7832, 1, 87, [778]⟩, ⟨7833, 1, 89, [778]⟩, ⟨7834, 1, 65, [702]⟩, ⟨8016, 1, 933, [787]⟩,
   ⟨8018, 1, 933, [787, 768]⟩, ⟨8020, 1, 933, [787, 769]⟩, ⟨8022, 1, 933, [787, 834]⟩,
   ⟨8064, 8, 7944, [921]⟩, ⟨8072, 8, 7944, [921]⟩, ⟨8080, 8, 7976, [921]⟩, ⟨8088, 8, 7976, [921]⟩,
   ⟨8096, 8, 8040, [921]⟩, ⟨8104, 8, 8040, [921]⟩, ⟨8114, 1, 8122, [921]⟩, ⟨8115, 1, 913, [921]⟩,
   ⟨8116, 1, 902, [921]⟩, ⟨8118, 1, 913, [834]⟩, ⟨8119, 1, 913, [834, 921]⟩, ⟨8124, 1, 913, [921]⟩,
   ⟨8130, 1, 8138, [921]⟩, ⟨8131, 1, 919, [921]⟩, ⟨8132, 1, 905, [921]⟩, ⟨8134, 1, 919, [834]⟩,
   ⟨8135, 1, 919, [834, 921]⟩, ⟨8140, 1, 919, [921]⟩, ⟨8146, 1, 921, [776, 768]⟩,
   ⟨8147, 1, 921, [776, 769]⟩, ⟨8150, 1, 921, [834]⟩, ⟨8151, 1, 921, [776, 834]⟩,
   ⟨8162, 1, 933, [776, 768]⟩, ⟨8163, 1, 933, [776, 769]⟩, ⟨8164, 1, 929, [787]⟩,
   ⟨8166, 1, 933, [834]⟩, ⟨8167, 1, 933, [776, 834]⟩, ⟨8178, 1, 8186, [921]⟩, ⟨8179, 1, 937, [921]⟩,
   ⟨8180, 1, 911, [921]⟩, ⟨8182, 1, 937, [834]⟩, ⟨8183, 1, 937, [834, 921]⟩, ⟨8188, 1, 937, [921]⟩,
   ⟨64256, 1, 70, [70]⟩, ⟨64257, 1, 70, [73]⟩, ⟨64258, 1, 70, [76]⟩, ⟨64259, 1, 70, [70, 73]⟩,
   ⟨64260, 1, 70, [70, 76]⟩, ⟨64261, 1, 83, [84]⟩, ⟨64262, 1, 83, [84]⟩, ⟨64275, 1, 1348, [1350]⟩,
   ⟨64276, 1, 1348, [1333]⟩, ⟨64277, 1, 1348, [1339]⟩, ⟨64278, 1, 1358, [1350]⟩,
   ⟨64279, 1, 1348, [1341]⟩]

def lowerExpansions : List Expansion :=
  [⟨304, 1, 105, [775]⟩]

/-- Letters that have case and count as letters before or after a sigma. -/
def casedRanges : List Nat :=
  [65, 26, 6, 26, 47, 1, 10, 1, 4, 1, 5, 23, 1, 31, 1, 195, 1, 4, 4, 208, 1, 27, 192, 4, 2, 2, 3, 3,
   1, 1, 6, 1, 1, 3, 1, 1, 1, 20, 1, 83, 1, 139, 8, 166, 1, 38, 9, 41, 2839, 38, 1, 1, 5, 1, 2, 43,
   2, 3, 672, 86, 2, 6, 2178, 9, 7, 43, 2, 3, 64, 44, 63, 13, 1, 34, 101, 278, 2, 6, 2, 38, 2, 6, 2,
   8, 1, 1, 1, 1, 1, 1, 1, 31, 2, 53, 1, 7, 1, 1, 3, 3, 1, 7, 3, 4, 2, 6, 4, 13, 5, 3, 1, 7, 261, 1,
   4, 1, 2, 10, 1, 1, 3, 5, 6, 1, 1, 1, 1, 1, 1, 4, 1, 6, 4, 1, 2, 4, 5, 5, 4, 1, 17, 32, 3, 2, 817,
   52, 1814, 124, 2, 103, 6, 4, 3, 2, 12, 38, 1, 1, 5, 1, 30994, 46, 18, 28, 134, 78, 1, 23, 3, 4,
   1, 59, 5, 2, 1, 1, 1, 5, 27, 2, 3, 1, 821, 43, 5, 9, 7, 80, 20288, 7, 12, 5, 1033, 26, 6, 26,
   1189, 80, 96, 36, 4, 36, 116, 11, 1, 15, 1, 7, 1, 2, 1, 11, 1, 15, 1, 7, 1, 2, 1731, 51, 13, 51,
   2989, 64, 21856, 64, 25984, 85, 1, 71, 1, 2, 2, 1, 2, 2, 2, 4, 1, 12, 1, 1, 1, 7, 1, 65, 1, 4, 2,
   8, 1, 7, 1, 28, 1, 4, 1, 5, 1, 1, 3, 7, 1, 340, 2, 25, 1, 25, 1, 31, 1, 25, 1, 31, 1, 25, 1, 31,
   1, 25, 1, 31, 1, 25, 1, 8, 1844, 10, 1, 20, 2529, 68, 2028, 26, 6, 26, 6, 26]

/-- Marks that are passed over when the neighbours of a sigma are looked for. -/
def ignorableRanges : List Nat :=
  [39, 1, 6, 1, 11, 1, 35, 1, 1, 1, 71, 1, 4, 1, 1, 1, 4, 1, 2, 2, 503, 192, 4, 2, 4, 1, 9, 2, 1, 1,
   251, 7, 207, 1, 5, 1, 49, 45, 1, 1, 1, 2, 1, 2, 1, 1, 44, 1, 11, 6, 10, 11, 1, 1, 35, 1, 10, 21,
   16, 1, 101, 8, 1, 10, 1, 4, 33, 1, 1, 1, 30, 27, 91, 11, 58, 11, 4, 1, 2, 1, 24, 24, 43, 3, 44,
   1, 7, 2, 6, 8, 41, 58, 55, 1, 1, 1, 4, 8, 4, 1, 3, 7, 10, 2, 13, 1, 15, 1, 58, 1, 4, 4, 8, 1, 20,
   2, 26, 1, 2, 2, 57, 1, 4, 2, 4, 2, 2, 3, 3, 1, 30, 2, 3, 1, 11, 2, 57, 1, 4, 5, 1, 2, 4, 1, 20,
   2, 22, 6, 1, 1, 58, 1, 2, 1, 1, 4, 8, 1, 7, 2, 11, 2, 30, 1, 61, 1, 12, 1, 50, 1, 3, 1, 55, 1, 1,
   3, 5, 3, 1, 4, 7, 2, 11, 2, 29, 1, 58, 1, 2, 1, 6, 1, 5, 2, 20, 2, 28, 2, 57, 2, 4, 4, 8, 1, 20,
   2, 29, 1, 72, 1, 7, 3, 1, 1, 90, 1, 2, 7, 11, 9, 98, 1, 2, 9, 9, 1, 1, 6, 74, 2, 27, 1, 1, 1, 1,
   1, 55, 14, 1, 5, 1, 2, 5, 11, 1, 36, 9, 1, 102, 4, 1, 6, 1, 2, 2, 2, 25, 2, 4, 3, 16, 4, 13, 1,
   2, 2, 6, 1, 15, 1, 94, 1, 608, 3, 946, 3, 29, 2, 30, 2, 30, 2, 64, 2, 1, 7, 8, 1, 2, 11, 3, 1, 5,
   1, 45, 5, 51, 1, 65, 2, 34, 1, 118, 3, 4, 2, 9, 1, 6, 3, 219, 2, 2, 1, 58, 1, 1, 7, 1, 1, 1, 1,
   2, 8, 6, 10, 2, 1, 39, 1, 8, 31, 49, 4, 48, 1, 1, 5, 1, 1, 5, 1, 40, 9, 12, 2, 32, 4, 2, 2, 1, 3,
   56, 1, 1, 2, 3, 1, 1, 3, 58, 8, 2, 2, 64, 6, 82, 3, 1, 13, 1, 7, 4, 1, 6, 1, 3, 2, 50, 63, 13, 1,
   34, 101, 445, 1, 1, 3, 11, 3, 13, 3, 13, 3, 13, 2, 12, 5, 8, 2, 10, 1, 2, 1, 2, 5, 49, 5, 1, 10,
   1, 1, 13, 1, 16, 13, 51, 33, 2955, 2, 113, 3, 125, 1, 15, 1, 96, 32, 47, 1, 469, 1, 36, 4, 3, 5,
   5, 1, 93, 6, 93, 3, 28438, 1, 1250, 6, 270, 1, 98, 4, 1, 10, 1, 1, 28, 4, 80, 2, 14, 34, 78, 1,
   23, 3, 103, 3, 3, 2, 8, 1, 3, 1, 4, 1, 25, 2, 5, 1, 151, 2, 26, 18, 13, 1, 38, 8, 25, 11, 46, 3,
   48, 1, 2, 4, 2, 2, 17, 1, 21, 2, 66, 6, 2, 2, 2, 2, 12, 1, 8, 1, 35, 1, 11, 1, 51, 1, 1, 3, 2, 2,
   5, 2, 1, 1, 27, 1, 14, 2, 5, 2, 1, 1, 100, 5, 9, 3, 121, 1, 2, 1, 4, 1, 20272, 1, 147, 17, 573,
   16, 3, 1, 12, 16, 34, 1, 2, 1, 169, 1, 7, 1, 6, 1, 11, 1, 35, 1, 1, 1, 47, 1, 45, 2, 67, 1, 21,
   3, 513, 1, 226, 1, 149, 5, 1029, 6, 1, 42, 1, 9, 582, 3, 1, 2, 5, 4, 40, 3, 4, 1, 165, 2, 573, 4,
   387, 2, 153, 11, 49, 4, 123, 1, 54, 15, 41, 1, 2, 2, 10, 3, 49, 4, 2, 2, 2, 1, 4, 1, 10, 1, 50,
   3, 36, 5, 1, 8, 62, 1, 12, 2, 52, 9, 10, 4, 2, 1, 95, 3, 2, 1, 1, 2, 6, 1, 160, 1, 3, 8, 21, 2,
   57, 2, 3, 1, 37, 7, 3, 5, 195, 8, 2, 3, 1, 1, 23, 1, 84, 6, 1, 1, 4, 2, 1, 2, 238, 4, 6, 2, 1, 2,
   27, 2, 85, 8, 2, 1, 1, 2, 106, 1, 1, 1, 2, 6, 1, 1, 101, 3, 2, 4, 1, 5, 259, 9, 1, 2, 256, 2, 1,
   1, 4, 1, 144, 4, 2, 2, 4, 1, 32, 10, 40, 6, 2, 4, 8, 1, 9, 6, 2, 3, 46, 13, 1, 2, 406, 7, 1, 6,
   1, 1, 82, 22, 2, 7, 1, 2, 1, 2, 122, 6, 3, 1, 1, 2, 1, 7, 1, 1, 72, 2, 3, 1, 1, 1, 347, 2, 5435,
   9, 14007, 5, 59, 7, 9, 4, 1035, 1, 63, 17, 64, 2, 1, 2, 16395, 4, 1, 7, 1, 2, 3230, 2, 1, 4,
   4700, 46, 2, 23, 544, 3, 9, 16, 2, 7, 30, 4, 148, 3, 1979, 55, 4, 50, 8, 1, 14, 1, 22, 5, 1, 15,
   1360, 7, 1, 17, 2, 7, 1, 2, 1, 5, 261, 14, 368, 1, 61, 4, 1504, 7, 109, 8, 2735, 5, 789505, 1,
   30, 96, 128, 240]

def upperChar (c : Char) : List Char :=
  if c.toNat < 128 then [c.toUpper] else mapCase upperExpansions upperRuns c

def upper (s : String) : String :=
  String.ofList (s.toList.flatMap upperChar)

def meetsCased (cs : List Char) : Bool :=
  match cs.dropWhile (inRanges ignorableRanges) with
  | [] => false
  | c :: _ => inRanges casedRanges c

def lowerChar (before after : List Char) (c : Char) : List Char :=
  if c.toNat < 128 then [c.toLower]
  else if c == 'Σ' then [if meetsCased before && !meetsCased after then 'ς' else 'σ']
  else mapCase lowerExpansions lowerRuns c

/-- Lower case of `cs`, where `before` holds the characters already passed, nearest first. -/
def lowerFrom (before : List Char) : List Char → List Char
  | [] => []
  | c :: rest => lowerChar before rest c ++ lowerFrom (c :: before) rest

def lower (s : String) : String :=
  String.ofList (lowerFrom [] s.toList)

end ScopeLint.Text
