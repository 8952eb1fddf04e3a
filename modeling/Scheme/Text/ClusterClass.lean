import Scheme.Text.Extender
/-!
# Classes of characters in clusters

The Unicode properties `Grapheme_Cluster_Break`, `Extended_Pictographic` and
`Indic_Conjunct_Break`.
-/

namespace Scheme.Text

/-- Controls beyond ASCII: characters that are never part of a larger cluster. -/
def controlRuns : List Run :=
  [⟨128, 159, 1⟩, ⟨173, 173, 1⟩, ⟨1564, 1564, 1⟩, ⟨6158, 6158, 1⟩, ⟨8203, 8203, 1⟩,
    ⟨8206, 8207, 1⟩, ⟨8232, 8238, 1⟩, ⟨8288, 8303, 1⟩, ⟨65279, 65279, 1⟩, ⟨65520, 65531, 1⟩,
    ⟨78896, 78911, 1⟩, ⟨113824, 113827, 1⟩, ⟨119155, 119162, 1⟩, ⟨917504, 917535, 1⟩,
    ⟨917632, 917759, 1⟩, ⟨918000, 921599, 1⟩]

/-- Signs that join the character after them. -/
def prependedRuns : List Run :=
  [⟨1536, 1541, 1⟩, ⟨1757, 1757, 1⟩, ⟨1807, 1807, 1⟩, ⟨2192, 2193, 1⟩, ⟨2274, 2274, 1⟩,
    ⟨3406, 3406, 1⟩, ⟨69821, 69821, 1⟩, ⟨69837, 69837, 1⟩, ⟨70082, 70083, 1⟩, ⟨70609, 70609, 1⟩,
    ⟨71999, 71999, 1⟩, ⟨72001, 72001, 1⟩, ⟨72324, 72329, 1⟩, ⟨73030, 73030, 1⟩, ⟨73474, 73474, 1⟩]

/-- Marks with a width of their own that join the character before them. -/
def spacingRuns : List Run :=
  [⟨2307, 2307, 1⟩, ⟨2363, 2363, 1⟩, ⟨2366, 2368, 1⟩, ⟨2377, 2380, 1⟩, ⟨2382, 2383, 1⟩,
    ⟨2434, 2435, 1⟩, ⟨2495, 2496, 1⟩, ⟨2503, 2504, 1⟩, ⟨2507, 2508, 1⟩, ⟨2563, 2563, 1⟩,
    ⟨2622, 2624, 1⟩, ⟨2691, 2691, 1⟩, ⟨2750, 2752, 1⟩, ⟨2761, 2761, 1⟩, ⟨2763, 2764, 1⟩,
    ⟨2818, 2819, 1⟩, ⟨2880, 2880, 1⟩, ⟨2887, 2888, 1⟩, ⟨2891, 2892, 1⟩, ⟨3007, 3007, 1⟩,
    ⟨3009, 3010, 1⟩, ⟨3014, 3016, 1⟩, ⟨3018, 3020, 1⟩, ⟨3073, 3075, 1⟩, ⟨3137, 3140, 1⟩,
    ⟨3202, 3203, 1⟩, ⟨3262, 3262, 1⟩, ⟨3265, 3265, 1⟩, ⟨3267, 3268, 1⟩, ⟨3315, 3315, 1⟩,
    ⟨3330, 3331, 1⟩, ⟨3391, 3392, 1⟩, ⟨3398, 3400, 1⟩, ⟨3402, 3404, 1⟩, ⟨3458, 3459, 1⟩,
    ⟨3536, 3537, 1⟩, ⟨3544, 3550, 1⟩, ⟨3570, 3571, 1⟩, ⟨3635, 3635, 1⟩, ⟨3763, 3763, 1⟩,
    ⟨3902, 3903, 1⟩, ⟨3967, 3967, 1⟩, ⟨4145, 4145, 1⟩, ⟨4155, 4156, 1⟩, ⟨4182, 4183, 1⟩,
    ⟨4228, 4228, 1⟩, ⟨6070, 6070, 1⟩, ⟨6078, 6085, 1⟩, ⟨6087, 6088, 1⟩, ⟨6435, 6438, 1⟩,
    ⟨6441, 6443, 1⟩, ⟨6448, 6449, 1⟩, ⟨6451, 6456, 1⟩, ⟨6681, 6682, 1⟩, ⟨6741, 6741, 1⟩,
    ⟨6743, 6743, 1⟩, ⟨6765, 6770, 1⟩, ⟨6916, 6916, 1⟩, ⟨6974, 6977, 1⟩, ⟨7042, 7042, 1⟩,
    ⟨7073, 7073, 1⟩, ⟨7078, 7079, 1⟩, ⟨7143, 7143, 1⟩, ⟨7146, 7148, 1⟩, ⟨7150, 7150, 1⟩,
    ⟨7204, 7211, 1⟩, ⟨7220, 7221, 1⟩, ⟨7393, 7393, 1⟩, ⟨7415, 7415, 1⟩, ⟨43043, 43044, 1⟩,
    ⟨43047, 43047, 1⟩, ⟨43136, 43137, 1⟩, ⟨43188, 43203, 1⟩, ⟨43346, 43346, 1⟩, ⟨43395, 43395, 1⟩,
    ⟨43444, 43445, 1⟩, ⟨43450, 43451, 1⟩, ⟨43454, 43455, 1⟩, ⟨43567, 43568, 1⟩, ⟨43571, 43572, 1⟩,
    ⟨43597, 43597, 1⟩, ⟨43755, 43755, 1⟩, ⟨43758, 43759, 1⟩, ⟨43765, 43765, 1⟩, ⟨44003, 44004, 1⟩,
    ⟨44006, 44007, 1⟩, ⟨44009, 44010, 1⟩, ⟨44012, 44012, 1⟩, ⟨69632, 69632, 1⟩, ⟨69634, 69634, 1⟩,
    ⟨69762, 69762, 1⟩, ⟨69808, 69810, 1⟩, ⟨69815, 69816, 1⟩, ⟨69932, 69932, 1⟩, ⟨69957, 69958, 1⟩,
    ⟨70018, 70018, 1⟩, ⟨70067, 70069, 1⟩, ⟨70079, 70079, 1⟩, ⟨70094, 70094, 1⟩, ⟨70188, 70190, 1⟩,
    ⟨70194, 70195, 1⟩, ⟨70368, 70370, 1⟩, ⟨70402, 70403, 1⟩, ⟨70463, 70463, 1⟩, ⟨70465, 70468, 1⟩,
    ⟨70471, 70472, 1⟩, ⟨70475, 70476, 1⟩, ⟨70498, 70499, 1⟩, ⟨70585, 70586, 1⟩, ⟨70602, 70602, 1⟩,
    ⟨70604, 70605, 1⟩, ⟨70709, 70711, 1⟩, ⟨70720, 70721, 1⟩, ⟨70725, 70725, 1⟩, ⟨70833, 70834, 1⟩,
    ⟨70841, 70841, 1⟩, ⟨70843, 70844, 1⟩, ⟨70846, 70846, 1⟩, ⟨70849, 70849, 1⟩, ⟨71088, 71089, 1⟩,
    ⟨71096, 71099, 1⟩, ⟨71102, 71102, 1⟩, ⟨71216, 71218, 1⟩, ⟨71227, 71228, 1⟩, ⟨71230, 71230, 1⟩,
    ⟨71340, 71340, 1⟩, ⟨71342, 71343, 1⟩, ⟨71454, 71454, 1⟩, ⟨71462, 71462, 1⟩, ⟨71724, 71726, 1⟩,
    ⟨71736, 71736, 1⟩, ⟨71985, 71989, 1⟩, ⟨71991, 71992, 1⟩, ⟨72000, 72000, 1⟩, ⟨72002, 72002, 1⟩,
    ⟨72145, 72147, 1⟩, ⟨72156, 72159, 1⟩, ⟨72164, 72164, 1⟩, ⟨72249, 72249, 1⟩, ⟨72279, 72280, 1⟩,
    ⟨72343, 72343, 1⟩, ⟨72545, 72545, 1⟩, ⟨72549, 72549, 1⟩, ⟨72551, 72551, 1⟩, ⟨72751, 72751, 1⟩,
    ⟨72766, 72766, 1⟩, ⟨72873, 72873, 1⟩, ⟨72881, 72881, 1⟩, ⟨72884, 72884, 1⟩, ⟨73098, 73102, 1⟩,
    ⟨73107, 73108, 1⟩, ⟨73110, 73110, 1⟩, ⟨73461, 73462, 1⟩, ⟨73475, 73475, 1⟩, ⟨73524, 73525, 1⟩,
    ⟨73534, 73535, 1⟩, ⟨90410, 90412, 1⟩, ⟨94033, 94087, 1⟩]

/-- Pictographs beyond ASCII. -/
def pictographRuns : List Run :=
  [⟨169, 169, 1⟩, ⟨174, 174, 1⟩, ⟨8252, 8252, 1⟩, ⟨8265, 8265, 1⟩, ⟨8482, 8482, 1⟩,
    ⟨8505, 8505, 1⟩, ⟨8596, 8601, 1⟩, ⟨8617, 8618, 1⟩, ⟨8986, 8987, 1⟩, ⟨9000, 9000, 1⟩,
    ⟨9167, 9167, 1⟩, ⟨9193, 9203, 1⟩, ⟨9208, 9210, 1⟩, ⟨9410, 9410, 1⟩, ⟨9642, 9643, 1⟩,
    ⟨9654, 9654, 1⟩, ⟨9664, 9664, 1⟩, ⟨9723, 9726, 1⟩, ⟨9728, 9732, 1⟩, ⟨9742, 9742, 1⟩,
    ⟨9745, 9745, 1⟩, ⟨9748, 9749, 1⟩, ⟨9752, 9752, 1⟩, ⟨9757, 9757, 1⟩, ⟨9760, 9760, 1⟩,
    ⟨9762, 9763, 1⟩, ⟨9766, 9766, 1⟩, ⟨9770, 9770, 1⟩, ⟨9774, 9775, 1⟩, ⟨9784, 9786, 1⟩,
    ⟨9792, 9792, 1⟩, ⟨9794, 9794, 1⟩, ⟨9800, 9811, 1⟩, ⟨9823, 9824, 1⟩, ⟨9827, 9827, 1⟩,
    ⟨9829, 9830, 1⟩, ⟨9832, 9832, 1⟩, ⟨9851, 9851, 1⟩, ⟨9854, 9855, 1⟩, ⟨9874, 9879, 1⟩,
    ⟨9881, 9881, 1⟩, ⟨9883, 9884, 1⟩, ⟨9888, 9889, 1⟩, ⟨9895, 9895, 1⟩, ⟨9898, 9899, 1⟩,
    ⟨9904, 9905, 1⟩, ⟨9917, 9918, 1⟩, ⟨9924, 9925, 1⟩, ⟨9928, 9928, 1⟩, ⟨9934, 9935, 1⟩,
    ⟨9937, 9937, 1⟩, ⟨9939, 9940, 1⟩, ⟨9961, 9962, 1⟩, ⟨9968, 9973, 1⟩, ⟨9975, 9978, 1⟩,
    ⟨9981, 9981, 1⟩, ⟨9986, 9986, 1⟩, ⟨9989, 9989, 1⟩, ⟨9992, 9997, 1⟩, ⟨9999, 9999, 1⟩,
    ⟨10002, 10002, 1⟩, ⟨10004, 10004, 1⟩, ⟨10006, 10006, 1⟩, ⟨10013, 10013, 1⟩, ⟨10017, 10017, 1⟩,
    ⟨10024, 10024, 1⟩, ⟨10035, 10036, 1⟩, ⟨10052, 10052, 1⟩, ⟨10055, 10055, 1⟩, ⟨10060, 10060, 1⟩,
    ⟨10062, 10062, 1⟩, ⟨10067, 10069, 1⟩, ⟨10071, 10071, 1⟩, ⟨10083, 10084, 1⟩, ⟨10133, 10135, 1⟩,
    ⟨10145, 10145, 1⟩, ⟨10160, 10160, 1⟩, ⟨10175, 10175, 1⟩, ⟨10548, 10549, 1⟩, ⟨11013, 11015, 1⟩,
    ⟨11035, 11036, 1⟩, ⟨11088, 11088, 1⟩, ⟨11093, 11093, 1⟩, ⟨12336, 12336, 1⟩, ⟨12349, 12349, 1⟩,
    ⟨12951, 12951, 1⟩, ⟨12953, 12953, 1⟩, ⟨126980, 126980, 1⟩, ⟨127020, 127023, 1⟩,
    ⟨127124, 127135, 1⟩, ⟨127151, 127152, 1⟩, ⟨127168, 127168, 1⟩, ⟨127183, 127184, 1⟩,
    ⟨127222, 127231, 1⟩, ⟨127344, 127345, 1⟩, ⟨127358, 127359, 1⟩, ⟨127374, 127374, 1⟩,
    ⟨127377, 127386, 1⟩, ⟨127406, 127461, 1⟩, ⟨127489, 127503, 1⟩, ⟨127514, 127514, 1⟩,
    ⟨127535, 127535, 1⟩, ⟨127538, 127546, 1⟩, ⟨127548, 127551, 1⟩, ⟨127561, 127583, 1⟩,
    ⟨127590, 127777, 1⟩, ⟨127780, 127891, 1⟩, ⟨127894, 127895, 1⟩, ⟨127897, 127899, 1⟩,
    ⟨127902, 127984, 1⟩, ⟨127987, 127989, 1⟩, ⟨127991, 127994, 1⟩, ⟨128000, 128253, 1⟩,
    ⟨128255, 128317, 1⟩, ⟨128329, 128334, 1⟩, ⟨128336, 128359, 1⟩, ⟨128367, 128368, 1⟩,
    ⟨128371, 128378, 1⟩, ⟨128391, 128391, 1⟩, ⟨128394, 128397, 1⟩, ⟨128400, 128400, 1⟩,
    ⟨128405, 128406, 1⟩, ⟨128420, 128421, 1⟩, ⟨128424, 128424, 1⟩, ⟨128433, 128434, 1⟩,
    ⟨128444, 128444, 1⟩, ⟨128450, 128452, 1⟩, ⟨128465, 128467, 1⟩, ⟨128476, 128478, 1⟩,
    ⟨128481, 128481, 1⟩, ⟨128483, 128483, 1⟩, ⟨128488, 128488, 1⟩, ⟨128495, 128495, 1⟩,
    ⟨128499, 128499, 1⟩, ⟨128506, 128591, 1⟩, ⟨128640, 128709, 1⟩, ⟨128715, 128722, 1⟩,
    ⟨128725, 128741, 1⟩, ⟨128745, 128745, 1⟩, ⟨128747, 128752, 1⟩, ⟨128755, 128767, 1⟩,
    ⟨128986, 129023, 1⟩, ⟨129036, 129039, 1⟩, ⟨129096, 129103, 1⟩, ⟨129114, 129119, 1⟩,
    ⟨129160, 129167, 1⟩, ⟨129198, 129199, 1⟩, ⟨129212, 129215, 1⟩, ⟨129218, 129231, 1⟩,
    ⟨129241, 129279, 1⟩, ⟨129292, 129338, 1⟩, ⟨129340, 129349, 1⟩, ⟨129351, 129535, 1⟩,
    ⟨129624, 129631, 1⟩, ⟨129646, 129791, 1⟩, ⟨130048, 131069, 1⟩]

/-- Consonants that form conjuncts. -/
def consonantRuns : List Run :=
  [⟨2325, 2361, 1⟩, ⟨2392, 2399, 1⟩, ⟨2424, 2431, 1⟩, ⟨2453, 2472, 1⟩, ⟨2474, 2480, 1⟩,
    ⟨2482, 2482, 1⟩, ⟨2486, 2489, 1⟩, ⟨2524, 2525, 1⟩, ⟨2527, 2527, 1⟩, ⟨2544, 2545, 1⟩,
    ⟨2709, 2728, 1⟩, ⟨2730, 2736, 1⟩, ⟨2738, 2739, 1⟩, ⟨2741, 2745, 1⟩, ⟨2809, 2809, 1⟩,
    ⟨2837, 2856, 1⟩, ⟨2858, 2864, 1⟩, ⟨2866, 2867, 1⟩, ⟨2869, 2873, 1⟩, ⟨2908, 2909, 1⟩,
    ⟨2911, 2911, 1⟩, ⟨2929, 2929, 1⟩, ⟨3093, 3112, 1⟩, ⟨3114, 3129, 1⟩, ⟨3160, 3162, 1⟩,
    ⟨3349, 3386, 1⟩, ⟨4096, 4138, 1⟩, ⟨4159, 4159, 1⟩, ⟨4176, 4181, 1⟩, ⟨4186, 4189, 1⟩,
    ⟨4193, 4193, 1⟩, ⟨4197, 4198, 1⟩, ⟨4206, 4208, 1⟩, ⟨4213, 4225, 1⟩, ⟨4238, 4238, 1⟩,
    ⟨6016, 6067, 1⟩, ⟨6688, 6740, 1⟩, ⟨6923, 6924, 1⟩, ⟨6931, 6963, 1⟩, ⟨6981, 6988, 1⟩,
    ⟨7043, 7072, 1⟩, ⟨7086, 7087, 1⟩, ⟨7099, 7101, 1⟩, ⟨43401, 43403, 1⟩, ⟨43407, 43442, 1⟩,
    ⟨43488, 43492, 1⟩, ⟨43495, 43503, 1⟩, ⟨43514, 43518, 1⟩, ⟨43616, 43631, 1⟩, ⟨43633, 43635, 1⟩,
    ⟨43642, 43642, 1⟩, ⟨43646, 43647, 1⟩, ⟨43744, 43754, 1⟩, ⟨43968, 43994, 1⟩, ⟨68096, 68096, 1⟩,
    ⟨68112, 68115, 1⟩, ⟨68117, 68119, 1⟩, ⟨68121, 68149, 1⟩, ⟨69891, 69926, 1⟩, ⟨69956, 69956, 1⟩,
    ⟨69959, 69959, 1⟩, ⟨70528, 70537, 1⟩, ⟨70539, 70539, 1⟩, ⟨70542, 70542, 1⟩, ⟨70544, 70581, 1⟩,
    ⟨71936, 71942, 1⟩, ⟨71945, 71945, 1⟩, ⟨71948, 71955, 1⟩, ⟨71957, 71958, 1⟩, ⟨71960, 71983, 1⟩,
    ⟨72192, 72192, 1⟩, ⟨72203, 72242, 1⟩, ⟨72272, 72272, 1⟩, ⟨72284, 72323, 1⟩, ⟨73476, 73488, 1⟩,
    ⟨73490, 73523, 1⟩]

/-- Signs that link two consonants to a conjunct. -/
def linkerRuns : List Run :=
  [⟨2381, 2381, 1⟩, ⟨2509, 2509, 1⟩, ⟨2765, 2765, 1⟩, ⟨2893, 2893, 1⟩, ⟨3149, 3149, 1⟩,
    ⟨3405, 3405, 1⟩, ⟨4153, 4153, 1⟩, ⟨6098, 6098, 1⟩, ⟨6752, 6752, 1⟩, ⟨6980, 6980, 1⟩,
    ⟨7083, 7083, 1⟩, ⟨43456, 43456, 1⟩, ⟨43766, 43766, 1⟩, ⟨68159, 68159, 1⟩, ⟨69939, 69939, 1⟩,
    ⟨70608, 70608, 1⟩, ⟨71998, 71998, 1⟩, ⟨72263, 72263, 1⟩, ⟨72345, 72345, 1⟩, ⟨73538, 73538, 1⟩]

/-- What a character is to the characters beside it. -/
inductive ClusterClass where
  | carriageReturn
  | lineFeed
  | control
  | extender
  | joiner
  | regional
  | prepended
  | spacing
  /-- Leading, vowel and trailing letters of syllable blocks, and blocks without and with a trailing
  letter. -/
  | leading
  | vowel
  | trailing
  | openBlock
  | closedBlock
  | pictograph
  | other
deriving DecidableEq

/-- The class of a letter or a block of the syllabic script, if it is one. -/
def syllabicClass? (code : Nat) : Option ClusterClass :=
  if (0x1100 ≤ code && code ≤ 0x115f) || (0xa960 ≤ code && code ≤ 0xa97c) then some .leading
  else if (0x1160 ≤ code && code ≤ 0x11a7) || (0xd7b0 ≤ code && code ≤ 0xd7c6)
      || code == 0x16d63 || (0x16d67 ≤ code && code ≤ 0x16d6a) then some .vowel
  else if (0x11a8 ≤ code && code ≤ 0x11ff) || (0xd7cb ≤ code && code ≤ 0xd7fb) then some .trailing
  else if 0xac00 ≤ code && code ≤ 0xd7a3 then
    some (if (code - 0xac00) % 28 == 0 then .openBlock else .closedBlock)
  else none

def clusterClass (c : Char) : ClusterClass :=
  let code := c.toNat
  if code < 128 then
    if c = '\r' then .carriageReturn
    else if c = '\n' then .lineFeed
    else if code < 32 || code == 127 then .control
    else .other
  else if code == 0x200d then .joiner
  else if 0x1f3fb ≤ code && code ≤ 0x1f3ff then .extender
  else if 0x1f1e6 ≤ code && code ≤ 0x1f1ff then .regional
  else if isExtender c then .extender
  else
    match syllabicClass? code with
    | some found => found
    | none =>
      if Run.cover controlRuns code then .control
      else if Run.cover prependedRuns code then .prepended
      else if Run.cover spacingRuns code then .spacing
      else if Run.cover pictographRuns code then .pictograph
      else .other

def isConsonant (c : Char) : Bool :=
  Run.cover consonantRuns c.toNat

def isLinker (c : Char) : Bool :=
  Run.cover linkerRuns c.toNat

end Scheme.Text
