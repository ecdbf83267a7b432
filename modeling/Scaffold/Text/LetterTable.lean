/-!
# Ranges of letters

Character properties of the Unicode standard outside ASCII, as lists of ranges. A row
`(first, last, step)` stands for the code points `first`, `first + step`, …, `last`; most rows
have step 1, and step 2 covers the blocks where capital and small letters alternate.
The lists are data only: `Scaffold.Text.Letter` reads them.
-/

namespace Scaffold.Text.LetterTable

/-- Code points with the property `Lowercase`. -/
def lower : List (Nat × Nat × Nat) :=
  [(170, 170, 1), (181, 181, 1), (186, 186, 1), (223, 246, 1), (248, 255, 1), (257, 311, 2),
   (312, 328, 2), (329, 375, 2), (378, 382, 2), (383, 384, 1), (387, 389, 2), (392, 392, 1),
   (396, 397, 1), (402, 402, 1), (405, 405, 1), (409, 411, 1), (414, 414, 1), (417, 421, 2),
   (424, 426, 2), (427, 429, 2), (432, 432, 1), (436, 438, 2), (441, 442, 1), (445, 447, 1),
   (454, 454, 1), (457, 457, 1), (460, 476, 2), (477, 495, 2), (496, 496, 1), (499, 501, 2),
   (505, 563, 2), (564, 569, 1), (572, 572, 1), (575, 576, 1), (578, 578, 1), (583, 591, 2),
   (592, 659, 1), (662, 696, 1), (704, 705, 1), (736, 740, 1), (837, 837, 1), (881, 883, 2),
   (887, 887, 1), (890, 893, 1), (912, 912, 1), (940, 974, 1), (976, 977, 1), (981, 983, 1),
   (985, 1007, 2), (1008, 1011, 1), (1013, 1013, 1), (1016, 1016, 1), (1019, 1020, 1),
   (1072, 1119, 1), (1121, 1153, 2), (1163, 1215, 2), (1218, 1230, 2), (1231, 1327, 2),
   (1376, 1416, 1), (4304, 4346, 1), (4348, 4351, 1), (5112, 5117, 1), (7296, 7304, 1),
   (7306, 7306, 1), (7424, 7615, 1), (7681, 7829, 2), (7830, 7837, 1), (7839, 7935, 2),
   (7936, 7943, 1), (7952, 7957, 1), (7968, 7975, 1), (7984, 7991, 1), (8000, 8005, 1),
   (8016, 8023, 1), (8032, 8039, 1), (8048, 8061, 1), (8064, 8071, 1), (8080, 8087, 1),
   (8096, 8103, 1), (8112, 8116, 1), (8118, 8119, 1), (8126, 8126, 1), (8130, 8132, 1),
   (8134, 8135, 1), (8144, 8147, 1), (8150, 8151, 1), (8160, 8167, 1), (8178, 8180, 1),
   (8182, 8183, 1), (8305, 8305, 1), (8319, 8319, 1), (8336, 8348, 1), (8458, 8458, 1),
   (8462, 8463, 1), (8467, 8467, 1), (8495, 8495, 1), (8500, 8500, 1), (8505, 8505, 1),
   (8508, 8509, 1), (8518, 8521, 1), (8526, 8526, 1), (8560, 8575, 1), (8580, 8580, 1),
   (9424, 9449, 1), (11312, 11359, 1), (11361, 11361, 1), (11365, 11366, 1), (11368, 11372, 2),
   (11377, 11379, 2), (11380, 11382, 2), (11383, 11389, 1), (11393, 11491, 2), (11492, 11492, 1),
   (11500, 11502, 2), (11507, 11507, 1), (11520, 11557, 1), (11559, 11559, 1), (11565, 11565, 1),
   (42561, 42605, 2), (42625, 42651, 2), (42652, 42653, 1), (42787, 42799, 2), (42800, 42801, 1),
   (42803, 42863, 2), (42864, 42872, 1), (42874, 42876, 2), (42879, 42887, 2), (42892, 42894, 2),
   (42897, 42899, 2), (42900, 42901, 1), (42903, 42921, 2), (42927, 42927, 1), (42933, 42947, 2),
   (42952, 42954, 2), (42957, 42971, 2), (42993, 42996, 1), (42998, 43000, 2), (43001, 43002, 1),
   (43824, 43866, 1), (43868, 43881, 1), (43888, 43967, 1), (64256, 64262, 1), (64275, 64279, 1),
   (65345, 65370, 1), (66600, 66639, 1), (66776, 66811, 1), (66967, 66977, 1), (66979, 66993, 1),
   (66995, 67001, 1), (67003, 67004, 1), (67456, 67456, 1), (67459, 67461, 1), (67463, 67504, 1),
   (67506, 67514, 1), (68800, 68850, 1), (68976, 68997, 1), (71872, 71903, 1), (93792, 93823, 1),
   (93883, 93907, 1), (119834, 119859, 1), (119886, 119892, 1), (119894, 119911, 1),
   (119938, 119963, 1), (119990, 119993, 1), (119995, 119997, 2), (119998, 120003, 1),
   (120005, 120015, 1), (120042, 120067, 1), (120094, 120119, 1), (120146, 120171, 1),
   (120198, 120223, 1), (120250, 120275, 1), (120302, 120327, 1), (120354, 120379, 1),
   (120406, 120431, 1), (120458, 120485, 1), (120514, 120538, 1), (120540, 120545, 1),
   (120572, 120596, 1), (120598, 120603, 1), (120630, 120654, 1), (120656, 120661, 1),
   (120688, 120712, 1), (120714, 120719, 1), (120746, 120770, 1), (120772, 120777, 1),
   (120779, 120779, 1), (122624, 122633, 1), (122635, 122654, 1), (122661, 122666, 1),
   (122928, 122989, 1), (125218, 125251, 1)]

/-- Code points with the property `Uppercase`. -/
def upper : List (Nat × Nat × Nat) :=
  [(192, 214, 1), (216, 222, 1), (256, 310, 2), (313, 327, 2), (330, 376, 2), (377, 381, 2),
   (385, 386, 1), (388, 390, 2), (391, 393, 2), (394, 395, 1), (398, 401, 1), (403, 404, 1),
   (406, 408, 1), (412, 413, 1), (415, 416, 1), (418, 422, 2), (423, 425, 2), (428, 430, 2),
   (431, 433, 2), (434, 435, 1), (437, 439, 2), (440, 440, 1), (444, 444, 1), (452, 452, 1),
   (455, 455, 1), (458, 458, 1), (461, 475, 2), (478, 494, 2), (497, 497, 1), (500, 502, 2),
   (503, 504, 1), (506, 562, 2), (570, 571, 1), (573, 574, 1), (577, 579, 2), (580, 582, 1),
   (584, 590, 2), (880, 882, 2), (886, 886, 1), (895, 895, 1), (902, 904, 2), (905, 906, 1),
   (908, 910, 2), (911, 913, 2), (914, 929, 1), (931, 939, 1), (975, 975, 1), (978, 980, 1),
   (984, 1006, 2), (1012, 1012, 1), (1015, 1017, 2), (1018, 1018, 1), (1021, 1071, 1),
   (1120, 1152, 2), (1162, 1216, 2), (1217, 1229, 2), (1232, 1326, 2), (1329, 1366, 1),
   (4256, 4293, 1), (4295, 4295, 1), (4301, 4301, 1), (5024, 5109, 1), (7305, 7305, 1),
   (7312, 7354, 1), (7357, 7359, 1), (7680, 7828, 2), (7838, 7934, 2), (7944, 7951, 1),
   (7960, 7965, 1), (7976, 7983, 1), (7992, 7999, 1), (8008, 8013, 1), (8025, 8031, 2),
   (8040, 8047, 1), (8120, 8123, 1), (8136, 8139, 1), (8152, 8155, 1), (8168, 8172, 1),
   (8184, 8187, 1), (8450, 8450, 1), (8455, 8455, 1), (8459, 8461, 1), (8464, 8466, 1),
   (8469, 8469, 1), (8473, 8477, 1), (8484, 8490, 2), (8491, 8493, 1), (8496, 8499, 1),
   (8510, 8511, 1), (8517, 8517, 1), (8544, 8559, 1), (8579, 8579, 1), (9398, 9423, 1),
   (11264, 11311, 1), (11360, 11362, 2), (11363, 11364, 1), (11367, 11373, 2), (11374, 11376, 1),
   (11378, 11378, 1), (11381, 11381, 1), (11390, 11392, 1), (11394, 11490, 2), (11499, 11501, 2),
   (11506, 11506, 1), (42560, 42604, 2), (42624, 42650, 2), (42786, 42798, 2), (42802, 42862, 2),
   (42873, 42877, 2), (42878, 42886, 2), (42891, 42893, 2), (42896, 42898, 2), (42902, 42922, 2),
   (42923, 42926, 1), (42928, 42932, 1), (42934, 42948, 2), (42949, 42951, 1), (42953, 42955, 2),
   (42956, 42972, 2), (42997, 42997, 1), (65313, 65338, 1), (66560, 66599, 1), (66736, 66771, 1),
   (66928, 66938, 1), (66940, 66954, 1), (66956, 66962, 1), (66964, 66965, 1), (68736, 68786, 1),
   (68944, 68965, 1), (71840, 71871, 1), (93760, 93791, 1), (93856, 93880, 1), (119808, 119833, 1),
   (119860, 119885, 1), (119912, 119937, 1), (119964, 119966, 2), (119967, 119967, 1),
   (119970, 119970, 1), (119973, 119974, 1), (119977, 119980, 1), (119982, 119989, 1),
   (120016, 120041, 1), (120068, 120069, 1), (120071, 120074, 1), (120077, 120084, 1),
   (120086, 120092, 1), (120120, 120121, 1), (120123, 120126, 1), (120128, 120132, 1),
   (120134, 120134, 1), (120138, 120144, 1), (120172, 120197, 1), (120224, 120249, 1),
   (120276, 120301, 1), (120328, 120353, 1), (120380, 120405, 1), (120432, 120457, 1),
   (120488, 120512, 1), (120546, 120570, 1), (120604, 120628, 1), (120662, 120686, 1),
   (120720, 120744, 1), (120778, 120778, 1), (125184, 125217, 1), (127280, 127305, 1),
   (127312, 127337, 1), (127344, 127369, 1)]

/-- Code points of the general category `Number`: digits, letter-like and other numbers. -/
def number : List (Nat × Nat × Nat) :=
  [(178, 179, 1), (185, 185, 1), (188, 190, 1), (1632, 1641, 1), (1776, 1785, 1), (1984, 1993, 1),
   (2406, 2415, 1), (2534, 2543, 1), (2548, 2553, 1), (2662, 2671, 1), (2790, 2799, 1),
   (2918, 2927, 1), (2930, 2935, 1), (3046, 3058, 1), (3174, 3183, 1), (3192, 3198, 1),
   (3302, 3311, 1), (3416, 3422, 1), (3430, 3448, 1), (3558, 3567, 1), (3664, 3673, 1),
   (3792, 3801, 1), (3872, 3891, 1), (4160, 4169, 1), (4240, 4249, 1), (4969, 4988, 1),
   (5870, 5872, 1), (6112, 6121, 1), (6128, 6137, 1), (6160, 6169, 1), (6470, 6479, 1),
   (6608, 6618, 1), (6784, 6793, 1), (6800, 6809, 1), (6992, 7001, 1), (7088, 7097, 1),
   (7232, 7241, 1), (7248, 7257, 1), (8304, 8304, 1), (8308, 8313, 1), (8320, 8329, 1),
   (8528, 8578, 1), (8581, 8585, 1), (9312, 9371, 1), (9450, 9471, 1), (10102, 10131, 1),
   (11517, 11517, 1), (12295, 12295, 1), (12321, 12329, 1), (12344, 12346, 1), (12690, 12693, 1),
   (12832, 12841, 1), (12872, 12879, 1), (12881, 12895, 1), (12928, 12937, 1), (12977, 12991, 1),
   (42528, 42537, 1), (42726, 42735, 1), (43056, 43061, 1), (43216, 43225, 1), (43264, 43273, 1),
   (43472, 43481, 1), (43504, 43513, 1), (43600, 43609, 1), (44016, 44025, 1), (65296, 65305, 1),
   (65799, 65843, 1), (65856, 65912, 1), (65930, 65931, 1), (66273, 66299, 1), (66336, 66339, 1),
   (66369, 66369, 1), (66378, 66378, 1), (66513, 66517, 1), (66720, 66729, 1), (67672, 67679, 1),
   (67705, 67711, 1), (67751, 67759, 1), (67835, 67839, 1), (67862, 67867, 1), (68028, 68029, 1),
   (68032, 68047, 1), (68050, 68095, 1), (68160, 68168, 1), (68221, 68222, 1), (68253, 68255, 1),
   (68331, 68335, 1), (68440, 68447, 1), (68472, 68479, 1), (68521, 68527, 1), (68858, 68863, 1),
   (68912, 68921, 1), (68928, 68937, 1), (69216, 69246, 1), (69405, 69414, 1), (69457, 69460, 1),
   (69573, 69579, 1), (69714, 69743, 1), (69872, 69881, 1), (69942, 69951, 1), (70096, 70105, 1),
   (70113, 70132, 1), (70384, 70393, 1), (70736, 70745, 1), (70864, 70873, 1), (71248, 71257, 1),
   (71360, 71369, 1), (71376, 71395, 1), (71472, 71483, 1), (71904, 71922, 1), (72016, 72025, 1),
   (72688, 72697, 1), (72784, 72812, 1), (73040, 73049, 1), (73120, 73129, 1), (73184, 73193, 1),
   (73552, 73561, 1), (73664, 73684, 1), (74752, 74862, 1), (90416, 90425, 1), (92768, 92777, 1),
   (92864, 92873, 1), (93008, 93017, 1), (93019, 93025, 1), (93552, 93561, 1), (93824, 93846, 1),
   (94196, 94198, 1), (118000, 118009, 1), (119488, 119507, 1), (119520, 119539, 1),
   (119648, 119672, 1), (120782, 120831, 1), (123200, 123209, 1), (123632, 123641, 1),
   (124144, 124153, 1), (124401, 124410, 1), (125127, 125135, 1), (125264, 125273, 1),
   (126065, 126123, 1), (126125, 126127, 1), (126129, 126132, 1), (126209, 126253, 1),
   (126255, 126269, 1), (127232, 127244, 1), (130032, 130041, 1)]

/-- Code points that count as part of a word: alphabetic characters, marks, decimal digits,
connecting punctuation and join controls. -/
def word : List (Nat × Nat × Nat) :=
  [(170, 170, 1), (181, 181, 1), (186, 186, 1), (192, 214, 1), (216, 246, 1), (248, 705, 1),
   (710, 721, 1), (736, 740, 1), (748, 750, 2), (768, 884, 1), (886, 887, 1), (890, 893, 1),
   (895, 895, 1), (902, 904, 2), (905, 906, 1), (908, 910, 2), (911, 929, 1), (931, 1013, 1),
   (1015, 1153, 1), (1155, 1327, 1), (1329, 1366, 1), (1369, 1369, 1), (1376, 1416, 1),
   (1425, 1469, 1), (1471, 1473, 2), (1474, 1476, 2), (1477, 1479, 2), (1488, 1514, 1),
   (1519, 1522, 1), (1552, 1562, 1), (1568, 1641, 1), (1646, 1747, 1), (1749, 1756, 1),
   (1759, 1768, 1), (1770, 1788, 1), (1791, 1791, 1), (1808, 1866, 1), (1869, 1969, 1),
   (1984, 2037, 1), (2042, 2042, 1), (2045, 2045, 1), (2048, 2093, 1), (2112, 2139, 1),
   (2144, 2154, 1), (2160, 2183, 1), (2185, 2190, 1), (2199, 2273, 1), (2275, 2403, 1),
   (2406, 2415, 1), (2417, 2435, 1), (2437, 2444, 1), (2447, 2448, 1), (2451, 2472, 1),
   (2474, 2480, 1), (2482, 2482, 1), (2486, 2489, 1), (2492, 2500, 1), (2503, 2504, 1),
   (2507, 2510, 1), (2519, 2519, 1), (2524, 2525, 1), (2527, 2531, 1), (2534, 2545, 1),
   (2556, 2558, 2), (2561, 2563, 1), (2565, 2570, 1), (2575, 2576, 1), (2579, 2600, 1),
   (2602, 2608, 1), (2610, 2611, 1), (2613, 2614, 1), (2616, 2617, 1), (2620, 2622, 2),
   (2623, 2626, 1), (2631, 2632, 1), (2635, 2637, 1), (2641, 2641, 1), (2649, 2652, 1),
   (2654, 2654, 1), (2662, 2677, 1), (2689, 2691, 1), (2693, 2701, 1), (2703, 2705, 1),
   (2707, 2728, 1), (2730, 2736, 1), (2738, 2739, 1), (2741, 2745, 1), (2748, 2757, 1),
   (2759, 2761, 1), (2763, 2765, 1), (2768, 2768, 1), (2784, 2787, 1), (2790, 2799, 1),
   (2809, 2815, 1), (2817, 2819, 1), (2821, 2828, 1), (2831, 2832, 1), (2835, 2856, 1),
   (2858, 2864, 1), (2866, 2867, 1), (2869, 2873, 1), (2876, 2884, 1), (2887, 2888, 1),
   (2891, 2893, 1), (2901, 2903, 1), (2908, 2909, 1), (2911, 2915, 1), (2918, 2927, 1),
   (2929, 2929, 1), (2946, 2947, 1), (2949, 2954, 1), (2958, 2960, 1), (2962, 2965, 1),
   (2969, 2970, 1), (2972, 2974, 2), (2975, 2975, 1), (2979, 2980, 1), (2984, 2986, 1),
   (2990, 3001, 1), (3006, 3010, 1), (3014, 3016, 1), (3018, 3021, 1), (3024, 3024, 1),
   (3031, 3031, 1), (3046, 3055, 1), (3072, 3084, 1), (3086, 3088, 1), (3090, 3112, 1),
   (3114, 3129, 1), (3132, 3140, 1), (3142, 3144, 1), (3146, 3149, 1), (3157, 3158, 1),
   (3160, 3162, 1), (3165, 3165, 1), (3168, 3171, 1), (3174, 3183, 1), (3200, 3203, 1),
   (3205, 3212, 1), (3214, 3216, 1), (3218, 3240, 1), (3242, 3251, 1), (3253, 3257, 1),
   (3260, 3268, 1), (3270, 3272, 1), (3274, 3277, 1), (3285, 3286, 1), (3293, 3294, 1),
   (3296, 3299, 1), (3302, 3311, 1), (3313, 3315, 1), (3328, 3340, 1), (3342, 3344, 1),
   (3346, 3396, 1), (3398, 3400, 1), (3402, 3406, 1), (3412, 3415, 1), (3423, 3427, 1),
   (3430, 3439, 1), (3450, 3455, 1), (3457, 3459, 1), (3461, 3478, 1), (3482, 3505, 1),
   (3507, 3515, 1), (3517, 3517, 1), (3520, 3526, 1), (3530, 3530, 1), (3535, 3540, 1),
   (3542, 3544, 2), (3545, 3551, 1), (3558, 3567, 1), (3570, 3571, 1), (3585, 3642, 1),
   (3648, 3662, 1), (3664, 3673, 1), (3713, 3714, 1), (3716, 3718, 2), (3719, 3722, 1),
   (3724, 3747, 1), (3749, 3751, 2), (3752, 3773, 1), (3776, 3780, 1), (3782, 3784, 2),
   (3785, 3790, 1), (3792, 3801, 1), (3804, 3807, 1), (3840, 3840, 1), (3864, 3865, 1),
   (3872, 3881, 1), (3893, 3897, 2), (3902, 3911, 1), (3913, 3948, 1), (3953, 3972, 1),
   (3974, 3991, 1), (3993, 4028, 1), (4038, 4038, 1), (4096, 4169, 1), (4176, 4253, 1),
   (4256, 4293, 1), (4295, 4295, 1), (4301, 4301, 1), (4304, 4346, 1), (4348, 4680, 1),
   (4682, 4685, 1), (4688, 4694, 1), (4696, 4698, 2), (4699, 4701, 1), (4704, 4744, 1),
   (4746, 4749, 1), (4752, 4784, 1), (4786, 4789, 1), (4792, 4798, 1), (4800, 4802, 2),
   (4803, 4805, 1), (4808, 4822, 1), (4824, 4880, 1), (4882, 4885, 1), (4888, 4954, 1),
   (4957, 4959, 1), (4992, 5007, 1), (5024, 5109, 1), (5112, 5117, 1), (5121, 5740, 1),
   (5743, 5759, 1), (5761, 5786, 1), (5792, 5866, 1), (5870, 5880, 1), (5888, 5909, 1),
   (5919, 5940, 1), (5952, 5971, 1), (5984, 5996, 1), (5998, 6000, 1), (6002, 6003, 1),
   (6016, 6099, 1), (6103, 6103, 1), (6108, 6109, 1), (6112, 6121, 1), (6155, 6157, 1),
   (6159, 6169, 1), (6176, 6264, 1), (6272, 6314, 1), (6320, 6389, 1), (6400, 6430, 1),
   (6432, 6443, 1), (6448, 6459, 1), (6470, 6509, 1), (6512, 6516, 1), (6528, 6571, 1),
   (6576, 6601, 1), (6608, 6617, 1), (6656, 6683, 1), (6688, 6750, 1), (6752, 6780, 1),
   (6783, 6793, 1), (6800, 6809, 1), (6823, 6823, 1), (6832, 6862, 1), (6912, 6988, 1),
   (6992, 7001, 1), (7019, 7027, 1), (7040, 7155, 1), (7168, 7223, 1), (7232, 7241, 1),
   (7245, 7293, 1), (7296, 7306, 1), (7312, 7354, 1), (7357, 7359, 1), (7376, 7378, 1),
   (7380, 7418, 1), (7424, 7957, 1), (7960, 7965, 1), (7968, 8005, 1), (8008, 8013, 1),
   (8016, 8023, 1), (8025, 8031, 2), (8032, 8061, 1), (8064, 8116, 1), (8118, 8124, 1),
   (8126, 8126, 1), (8130, 8132, 1), (8134, 8140, 1), (8144, 8147, 1), (8150, 8155, 1),
   (8160, 8172, 1), (8178, 8180, 1), (8182, 8188, 1), (8204, 8205, 1), (8255, 8256, 1),
   (8276, 8276, 1), (8305, 8305, 1), (8319, 8319, 1), (8336, 8348, 1), (8400, 8432, 1),
   (8450, 8450, 1), (8455, 8455, 1), (8458, 8467, 1), (8469, 8469, 1), (8473, 8477, 1),
   (8484, 8490, 2), (8491, 8493, 1), (8495, 8505, 1), (8508, 8511, 1), (8517, 8521, 1),
   (8526, 8526, 1), (8544, 8584, 1), (9398, 9449, 1), (11264, 11492, 1), (11499, 11507, 1),
   (11520, 11557, 1), (11559, 11559, 1), (11565, 11565, 1), (11568, 11623, 1), (11631, 11631, 1),
   (11647, 11670, 1), (11680, 11686, 1), (11688, 11694, 1), (11696, 11702, 1), (11704, 11710, 1),
   (11712, 11718, 1), (11720, 11726, 1), (11728, 11734, 1), (11736, 11742, 1), (11744, 11775, 1),
   (11823, 11823, 1), (12293, 12295, 1), (12321, 12335, 1), (12337, 12341, 1), (12344, 12348, 1),
   (12353, 12438, 1), (12441, 12442, 1), (12445, 12447, 1), (12449, 12538, 1), (12540, 12543, 1),
   (12549, 12591, 1), (12593, 12686, 1), (12704, 12735, 1), (12784, 12799, 1), (13312, 19903, 1),
   (19968, 42124, 1), (42192, 42237, 1), (42240, 42508, 1), (42512, 42539, 1), (42560, 42610, 1),
   (42612, 42621, 1), (42623, 42737, 1), (42775, 42783, 1), (42786, 42888, 1), (42891, 42957, 1),
   (42960, 42961, 1), (42963, 42965, 2), (42966, 42972, 1), (42994, 43047, 1), (43052, 43052, 1),
   (43072, 43123, 1), (43136, 43205, 1), (43216, 43225, 1), (43232, 43255, 1), (43259, 43261, 2),
   (43262, 43309, 1), (43312, 43347, 1), (43360, 43388, 1), (43392, 43456, 1), (43471, 43481, 1),
   (43488, 43518, 1), (43520, 43574, 1), (43584, 43597, 1), (43600, 43609, 1), (43616, 43638, 1),
   (43642, 43714, 1), (43739, 43741, 1), (43744, 43759, 1), (43762, 43766, 1), (43777, 43782, 1),
   (43785, 43790, 1), (43793, 43798, 1), (43808, 43814, 1), (43816, 43822, 1), (43824, 43866, 1),
   (43868, 43881, 1), (43888, 44010, 1), (44012, 44013, 1), (44016, 44025, 1), (44032, 55203, 1),
   (55216, 55238, 1), (55243, 55291, 1), (63744, 64109, 1), (64112, 64217, 1), (64256, 64262, 1),
   (64275, 64279, 1), (64285, 64296, 1), (64298, 64310, 1), (64312, 64316, 1), (64318, 64320, 2),
   (64321, 64323, 2), (64324, 64326, 2), (64327, 64433, 1), (64467, 64829, 1), (64848, 64911, 1),
   (64914, 64967, 1), (65008, 65019, 1), (65024, 65039, 1), (65056, 65071, 1), (65075, 65076, 1),
   (65101, 65103, 1), (65136, 65140, 1), (65142, 65276, 1), (65296, 65305, 1), (65313, 65338, 1),
   (65343, 65345, 2), (65346, 65370, 1), (65382, 65470, 1), (65474, 65479, 1), (65482, 65487, 1),
   (65490, 65495, 1), (65498, 65500, 1), (65536, 65547, 1), (65549, 65574, 1), (65576, 65594, 1),
   (65596, 65597, 1), (65599, 65613, 1), (65616, 65629, 1), (65664, 65786, 1), (65856, 65908, 1),
   (66045, 66045, 1), (66176, 66204, 1), (66208, 66256, 1), (66272, 66272, 1), (66304, 66335, 1),
   (66349, 66378, 1), (66384, 66426, 1), (66432, 66461, 1), (66464, 66499, 1), (66504, 66511, 1),
   (66513, 66517, 1), (66560, 66717, 1), (66720, 66729, 1), (66736, 66771, 1), (66776, 66811, 1),
   (66816, 66855, 1), (66864, 66915, 1), (66928, 66938, 1), (66940, 66954, 1), (66956, 66962, 1),
   (66964, 66965, 1), (66967, 66977, 1), (66979, 66993, 1), (66995, 67001, 1), (67003, 67004, 1),
   (67008, 67059, 1), (67072, 67382, 1), (67392, 67413, 1), (67424, 67431, 1), (67456, 67461, 1),
   (67463, 67504, 1), (67506, 67514, 1), (67584, 67589, 1), (67592, 67594, 2), (67595, 67637, 1),
   (67639, 67640, 1), (67644, 67644, 1), (67647, 67669, 1), (67680, 67702, 1), (67712, 67742, 1),
   (67808, 67826, 1), (67828, 67829, 1), (67840, 67861, 1), (67872, 67897, 1), (67968, 68023, 1),
   (68030, 68031, 1), (68096, 68099, 1), (68101, 68102, 1), (68108, 68115, 1), (68117, 68119, 1),
   (68121, 68149, 1), (68152, 68154, 1), (68159, 68159, 1), (68192, 68220, 1), (68224, 68252, 1),
   (68288, 68295, 1), (68297, 68326, 1), (68352, 68405, 1), (68416, 68437, 1), (68448, 68466, 1),
   (68480, 68497, 1), (68608, 68680, 1), (68736, 68786, 1), (68800, 68850, 1), (68864, 68903, 1),
   (68912, 68921, 1), (68928, 68965, 1), (68969, 68973, 1), (68975, 68997, 1), (69248, 69289, 1),
   (69291, 69292, 1), (69296, 69297, 1), (69314, 69316, 1), (69372, 69404, 1), (69415, 69415, 1),
   (69424, 69456, 1), (69488, 69509, 1), (69552, 69572, 1), (69600, 69622, 1), (69632, 69702, 1),
   (69734, 69749, 1), (69759, 69818, 1), (69826, 69826, 1), (69840, 69864, 1), (69872, 69881, 1),
   (69888, 69940, 1), (69942, 69951, 1), (69956, 69959, 1), (69968, 70003, 1), (70006, 70006, 1),
   (70016, 70084, 1), (70089, 70092, 1), (70094, 70106, 1), (70108, 70108, 1), (70144, 70161, 1),
   (70163, 70199, 1), (70206, 70209, 1), (70272, 70278, 1), (70280, 70282, 2), (70283, 70285, 1),
   (70287, 70301, 1), (70303, 70312, 1), (70320, 70378, 1), (70384, 70393, 1), (70400, 70403, 1),
   (70405, 70412, 1), (70415, 70416, 1), (70419, 70440, 1), (70442, 70448, 1), (70450, 70451, 1),
   (70453, 70457, 1), (70459, 70468, 1), (70471, 70472, 1), (70475, 70477, 1), (70480, 70480, 1),
   (70487, 70487, 1), (70493, 70499, 1), (70502, 70508, 1), (70512, 70516, 1), (70528, 70537, 1),
   (70539, 70539, 1), (70542, 70544, 2), (70545, 70581, 1), (70583, 70592, 1), (70594, 70594, 1),
   (70597, 70599, 2), (70600, 70602, 1), (70604, 70611, 1), (70625, 70626, 1), (70656, 70730, 1),
   (70736, 70745, 1), (70750, 70753, 1), (70784, 70853, 1), (70855, 70855, 1), (70864, 70873, 1),
   (71040, 71093, 1), (71096, 71104, 1), (71128, 71133, 1), (71168, 71232, 1), (71236, 71236, 1),
   (71248, 71257, 1), (71296, 71352, 1), (71360, 71369, 1), (71376, 71395, 1), (71424, 71450, 1),
   (71453, 71467, 1), (71472, 71481, 1), (71488, 71494, 1), (71680, 71738, 1), (71840, 71913, 1),
   (71935, 71942, 1), (71945, 71945, 1), (71948, 71955, 1), (71957, 71958, 1), (71960, 71989, 1),
   (71991, 71992, 1), (71995, 72003, 1), (72016, 72025, 1), (72096, 72103, 1), (72106, 72151, 1),
   (72154, 72161, 1), (72163, 72164, 1), (72192, 72254, 1), (72263, 72263, 1), (72272, 72345, 1),
   (72349, 72349, 1), (72368, 72440, 1), (72640, 72672, 1), (72688, 72697, 1), (72704, 72712, 1),
   (72714, 72758, 1), (72760, 72768, 1), (72784, 72793, 1), (72818, 72847, 1), (72850, 72871, 1),
   (72873, 72886, 1), (72960, 72966, 1), (72968, 72969, 1), (72971, 73014, 1), (73018, 73020, 2),
   (73021, 73023, 2), (73024, 73031, 1), (73040, 73049, 1), (73056, 73061, 1), (73063, 73064, 1),
   (73066, 73102, 1), (73104, 73105, 1), (73107, 73112, 1), (73120, 73129, 1), (73440, 73462, 1),
   (73472, 73488, 1), (73490, 73530, 1), (73534, 73538, 1), (73552, 73562, 1), (73648, 73648, 1),
   (73728, 74649, 1), (74752, 74862, 1), (74880, 75075, 1), (77712, 77808, 1), (77824, 78895, 1),
   (78912, 78933, 1), (78944, 82938, 1), (82944, 83526, 1), (90368, 90425, 1), (92160, 92728, 1),
   (92736, 92766, 1), (92768, 92777, 1), (92784, 92862, 1), (92864, 92873, 1), (92880, 92909, 1),
   (92912, 92916, 1), (92928, 92982, 1), (92992, 92995, 1), (93008, 93017, 1), (93027, 93047, 1),
   (93053, 93071, 1), (93504, 93548, 1), (93552, 93561, 1), (93760, 93823, 1), (93952, 94026, 1),
   (94031, 94087, 1), (94095, 94111, 1), (94176, 94177, 1), (94179, 94180, 1), (94192, 94193, 1),
   (94208, 100343, 1), (100352, 101589, 1), (101631, 101640, 1), (110576, 110579, 1),
   (110581, 110587, 1), (110589, 110590, 1), (110592, 110882, 1), (110898, 110898, 1),
   (110928, 110930, 1), (110933, 110933, 1), (110948, 110951, 1), (110960, 111355, 1),
   (113664, 113770, 1), (113776, 113788, 1), (113792, 113800, 1), (113808, 113817, 1),
   (113821, 113822, 1), (118000, 118009, 1), (118528, 118573, 1), (118576, 118598, 1),
   (119141, 119145, 1), (119149, 119154, 1), (119163, 119170, 1), (119173, 119179, 1),
   (119210, 119213, 1), (119362, 119364, 1), (119808, 119892, 1), (119894, 119964, 1),
   (119966, 119967, 1), (119970, 119970, 1), (119973, 119974, 1), (119977, 119980, 1),
   (119982, 119993, 1), (119995, 119997, 2), (119998, 120003, 1), (120005, 120069, 1),
   (120071, 120074, 1), (120077, 120084, 1), (120086, 120092, 1), (120094, 120121, 1),
   (120123, 120126, 1), (120128, 120132, 1), (120134, 120134, 1), (120138, 120144, 1),
   (120146, 120485, 1), (120488, 120512, 1), (120514, 120538, 1), (120540, 120570, 1),
   (120572, 120596, 1), (120598, 120628, 1), (120630, 120654, 1), (120656, 120686, 1),
   (120688, 120712, 1), (120714, 120744, 1), (120746, 120770, 1), (120772, 120779, 1),
   (120782, 120831, 1), (121344, 121398, 1), (121403, 121452, 1), (121461, 121461, 1),
   (121476, 121476, 1), (121499, 121503, 1), (121505, 121519, 1), (122624, 122654, 1),
   (122661, 122666, 1), (122880, 122886, 1), (122888, 122904, 1), (122907, 122913, 1),
   (122915, 122916, 1), (122918, 122922, 1), (122928, 122989, 1), (123023, 123023, 1),
   (123136, 123180, 1), (123184, 123197, 1), (123200, 123209, 1), (123214, 123214, 1),
   (123536, 123566, 1), (123584, 123641, 1), (124112, 124153, 1), (124368, 124410, 1),
   (124896, 124902, 1), (124904, 124907, 1), (124909, 124910, 1), (124912, 124926, 1),
   (124928, 125124, 1), (125136, 125142, 1), (125184, 125259, 1), (125264, 125273, 1),
   (126464, 126467, 1), (126469, 126495, 1), (126497, 126498, 1), (126500, 126500, 1),
   (126503, 126505, 2), (126506, 126514, 1), (126516, 126519, 1), (126521, 126523, 2),
   (126530, 126530, 1), (126535, 126541, 2), (126542, 126543, 1), (126545, 126546, 1),
   (126548, 126548, 1), (126551, 126561, 2), (126562, 126564, 2), (126567, 126570, 1),
   (126572, 126578, 1), (126580, 126583, 1), (126585, 126588, 1), (126590, 126592, 2),
   (126593, 126601, 1), (126603, 126619, 1), (126625, 126627, 1), (126629, 126633, 1),
   (126635, 126651, 1), (127280, 127305, 1), (127312, 127337, 1), (127344, 127369, 1),
   (130032, 130041, 1), (131072, 173791, 1), (173824, 177977, 1), (177984, 178205, 1),
   (178208, 183969, 1), (183984, 191456, 1), (191472, 192093, 1), (194560, 195101, 1),
   (196608, 201546, 1), (201552, 205743, 1), (917760, 917999, 1)]

/-- Capital forms that are one code point. A row `(first, last, step, image)` sends `first` to
`image`, and the later code points of the row by the same distance. -/
def capital : List (Nat × Nat × Nat × Nat) :=
  [(181, 181, 1, 924), (224, 246, 1, 192), (248, 254, 1, 216), (255, 255, 1, 376),
   (257, 303, 2, 256), (305, 305, 1, 73), (307, 311, 2, 306), (314, 328, 2, 313),
   (331, 375, 2, 330), (378, 382, 2, 377), (383, 383, 1, 83), (384, 384, 1, 579),
   (387, 389, 2, 386), (392, 392, 1, 391), (396, 396, 1, 395), (402, 402, 1, 401),
   (405, 405, 1, 502), (409, 409, 1, 408), (410, 410, 1, 573), (411, 411, 1, 42972),
   (414, 414, 1, 544), (417, 421, 2, 416), (424, 424, 1, 423), (429, 429, 1, 428),
   (432, 432, 1, 431), (436, 438, 2, 435), (441, 441, 1, 440), (445, 445, 1, 444),
   (447, 447, 1, 503), (453, 453, 1, 452), (454, 454, 1, 452), (456, 456, 1, 455),
   (457, 457, 1, 455), (459, 459, 1, 458), (460, 460, 1, 458), (462, 476, 2, 461),
   (477, 477, 1, 398), (479, 495, 2, 478), (498, 498, 1, 497), (499, 499, 1, 497),
   (501, 501, 1, 500), (505, 543, 2, 504), (547, 563, 2, 546), (572, 572, 1, 571),
   (575, 576, 1, 11390), (578, 578, 1, 577), (583, 591, 2, 582), (592, 592, 1, 11375),
   (593, 593, 1, 11373), (594, 594, 1, 11376), (595, 595, 1, 385), (596, 596, 1, 390),
   (598, 599, 1, 393), (601, 601, 1, 399), (603, 603, 1, 400), (604, 604, 1, 42923),
   (608, 608, 1, 403), (609, 609, 1, 42924), (611, 611, 1, 404), (612, 612, 1, 42955),
   (613, 613, 1, 42893), (614, 614, 1, 42922), (616, 616, 1, 407), (617, 617, 1, 406),
   (618, 618, 1, 42926), (619, 619, 1, 11362), (620, 620, 1, 42925), (623, 623, 1, 412),
   (625, 625, 1, 11374), (626, 626, 1, 413), (629, 629, 1, 415), (637, 637, 1, 11364),
   (640, 640, 1, 422), (642, 642, 1, 42949), (643, 643, 1, 425), (647, 647, 1, 42929),
   (648, 648, 1, 430), (649, 649, 1, 580), (650, 651, 1, 433), (652, 652, 1, 581),
   (658, 658, 1, 439), (669, 669, 1, 42930), (670, 670, 1, 42928), (837, 837, 1, 921),
   (881, 883, 2, 880), (887, 887, 1, 886), (891, 893, 1, 1021), (940, 940, 1, 902),
   (941, 943, 1, 904), (945, 961, 1, 913), (962, 962, 1, 931), (963, 971, 1, 931),
   (972, 972, 1, 908), (973, 974, 1, 910), (976, 976, 1, 914), (977, 977, 1, 920),
   (981, 981, 1, 934), (982, 982, 1, 928), (983, 983, 1, 975), (985, 1007, 2, 984),
   (1008, 1008, 1, 922), (1009, 1009, 1, 929), (1010, 1010, 1, 1017), (1011, 1011, 1, 895),
   (1013, 1013, 1, 917), (1016, 1016, 1, 1015), (1019, 1019, 1, 1018), (1072, 1103, 1, 1040),
   (1104, 1119, 1, 1024), (1121, 1153, 2, 1120), (1163, 1215, 2, 1162), (1218, 1230, 2, 1217),
   (1231, 1231, 1, 1216), (1233, 1327, 2, 1232), (1377, 1414, 1, 1329), (4304, 4346, 1, 7312),
   (4349, 4351, 1, 7357), (5112, 5117, 1, 5104), (7296, 7296, 1, 1042), (7297, 7297, 1, 1044),
   (7298, 7298, 1, 1054), (7299, 7300, 1, 1057), (7301, 7301, 1, 1058), (7302, 7302, 1, 1066),
   (7303, 7303, 1, 1122), (7304, 7304, 1, 42570), (7306, 7306, 1, 7305), (7545, 7545, 1, 42877),
   (7549, 7549, 1, 11363), (7566, 7566, 1, 42950), (7681, 7829, 2, 7680), (7835, 7835, 1, 7776),
   (7841, 7935, 2, 7840), (7936, 7943, 1, 7944), (7952, 7957, 1, 7960), (7968, 7975, 1, 7976),
   (7984, 7991, 1, 7992), (8000, 8005, 1, 8008), (8017, 8023, 2, 8025), (8032, 8039, 1, 8040),
   (8048, 8049, 1, 8122), (8050, 8053, 1, 8136), (8054, 8055, 1, 8154), (8056, 8057, 1, 8184),
   (8058, 8059, 1, 8170), (8060, 8061, 1, 8186), (8112, 8113, 1, 8120), (8126, 8126, 1, 921),
   (8144, 8145, 1, 8152), (8160, 8161, 1, 8168), (8165, 8165, 1, 8172), (8526, 8526, 1, 8498),
   (8560, 8575, 1, 8544), (8580, 8580, 1, 8579), (9424, 9449, 1, 9398), (11312, 11359, 1, 11264),
   (11361, 11361, 1, 11360), (11365, 11365, 1, 570), (11366, 11366, 1, 574),
   (11368, 11372, 2, 11367), (11379, 11379, 1, 11378), (11382, 11382, 1, 11381),
   (11393, 11491, 2, 11392), (11500, 11502, 2, 11499), (11507, 11507, 1, 11506),
   (11520, 11557, 1, 4256), (11559, 11559, 1, 4295), (11565, 11565, 1, 4301),
   (42561, 42605, 2, 42560), (42625, 42651, 2, 42624), (42787, 42799, 2, 42786),
   (42803, 42863, 2, 42802), (42874, 42876, 2, 42873), (42879, 42887, 2, 42878),
   (42892, 42892, 1, 42891), (42897, 42899, 2, 42896), (42900, 42900, 1, 42948),
   (42903, 42921, 2, 42902), (42933, 42947, 2, 42932), (42952, 42954, 2, 42951),
   (42957, 42971, 2, 42956), (42998, 42998, 1, 42997), (43859, 43859, 1, 42931),
   (43888, 43967, 1, 5024), (65345, 65370, 1, 65313), (66600, 66639, 1, 66560),
   (66776, 66811, 1, 66736), (66967, 66977, 1, 66928), (66979, 66993, 1, 66940),
   (66995, 67001, 1, 66956), (67003, 67004, 1, 66964), (68800, 68850, 1, 68736),
   (68976, 68997, 1, 68944), (71872, 71903, 1, 71840), (93792, 93823, 1, 93760),
   (93883, 93907, 1, 93856), (125218, 125251, 1, 125184)]

/-- Capital forms that are several code points, such as `SS` for the sharp s. -/
def longCapital : List (Nat × List Nat) :=
  [(223, [83, 83]), (329, [700, 78]), (496, [74, 780]), (912, [921, 776, 769]),
   (944, [933, 776, 769]), (1415, [1333, 1362]), (7830, [72, 817]), (7831, [84, 776]),
   (7832, [87, 778]), (7833, [89, 778]), (7834, [65, 702]), (8016, [933, 787]),
   (8018, [933, 787, 768]), (8020, [933, 787, 769]), (8022, [933, 787, 834]), (8064, [7944, 921]),
   (8065, [7945, 921]), (8066, [7946, 921]), (8067, [7947, 921]), (8068, [7948, 921]),
   (8069, [7949, 921]), (8070, [7950, 921]), (8071, [7951, 921]), (8072, [7944, 921]),
   (8073, [7945, 921]), (8074, [7946, 921]), (8075, [7947, 921]), (8076, [7948, 921]),
   (8077, [7949, 921]), (8078, [7950, 921]), (8079, [7951, 921]), (8080, [7976, 921]),
   (8081, [7977, 921]), (8082, [7978, 921]), (8083, [7979, 921]), (8084, [7980, 921]),
   (8085, [7981, 921]), (8086, [7982, 921]), (8087, [7983, 921]), (8088, [7976, 921]),
   (8089, [7977, 921]), (8090, [7978, 921]), (8091, [7979, 921]), (8092, [7980, 921]),
   (8093, [7981, 921]), (8094, [7982, 921]), (8095, [7983, 921]), (8096, [8040, 921]),
   (8097, [8041, 921]), (8098, [8042, 921]), (8099, [8043, 921]), (8100, [8044, 921]),
   (8101, [8045, 921]), (8102, [8046, 921]), (8103, [8047, 921]), (8104, [8040, 921]),
   (8105, [8041, 921]), (8106, [8042, 921]), (8107, [8043, 921]), (8108, [8044, 921]),
   (8109, [8045, 921]), (8110, [8046, 921]), (8111, [8047, 921]), (8114, [8122, 921]),
   (8115, [913, 921]), (8116, [902, 921]), (8118, [913, 834]), (8119, [913, 834, 921]),
   (8124, [913, 921]), (8130, [8138, 921]), (8131, [919, 921]), (8132, [905, 921]),
   (8134, [919, 834]), (8135, [919, 834, 921]), (8140, [919, 921]), (8146, [921, 776, 768]),
   (8147, [921, 776, 769]), (8150, [921, 834]), (8151, [921, 776, 834]), (8162, [933, 776, 768]),
   (8163, [933, 776, 769]), (8164, [929, 787]), (8166, [933, 834]), (8167, [933, 776, 834]),
   (8178, [8186, 921]), (8179, [937, 921]), (8180, [911, 921]), (8182, [937, 834]),
   (8183, [937, 834, 921]), (8188, [937, 921]), (64256, [70, 70]), (64257, [70, 73]),
   (64258, [70, 76]), (64259, [70, 70, 73]), (64260, [70, 70, 76]), (64261, [83, 84]),
   (64262, [83, 84]), (64275, [1348, 1350]), (64276, [1348, 1333]), (64277, [1348, 1339]),
   (64278, [1358, 1350]), (64279, [1348, 1341])]

end Scaffold.Text.LetterTable
