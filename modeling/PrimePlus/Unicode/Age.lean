import PrimePlus.Unicode.Coded

/-!
The version of the character standard in which a character was added.
-/

namespace PrimePlus.Unicode

/-- The characters that each version of the standard added, the earliest version first. -/
def ages : List CodedProperty :=
  codedTable "
  1.1,v11=aTheBdCeDkhBubjwCrBabsb43fg1btbBrbg3111brnlbCnblbBojCacbcbdBbchcbCdBlcgbBm1BmjbimBafeC3B43
  bzfsnncCtcebobBdcjTzcbCacrcedyqcbhcbcvbg1dd2bgcbcc9ebbecu7cfebcvbgbbbbbb2beebccld1homcbg1bcbvbgbbb
  ecjbcbc2B5fjrcbhcbcvbgbbcdchdbccibebbcekrbbfdcbddb1bbdbdcdhbceedcbd9plocbhbcbwbjbeegbcbdhbjbejsbbh
  bcbwbjbeegbcbdhb7bbejsbbhbcbwbpefccbd9ibejFpCfeBcBlb1cb12gdbgbc11cbbmbcce1bfcjcbRiBlkBm4eDlfCpfDdE
  OkFyfDlgvcfcBlcfch111bBecCabobncfbsccbibBubwBjgdBarkBlrBeCeBaBvnDmvJhB4bEqFdBkBbkvFivFtkDbqtgDhFpd
  bdcBbbBi1bd3bgcgoBedxbnDDhCd7bDfefcDpgBneDpbpDsBcdBjBcBbdBxpleBubEoeDucBeJWbBEXxYJqJXtIcgmegybe1bb
  bbbEdBhOaqClcCbBolBkdmuejbsbdec1bFe2bDpcDpdfcfcfccdgbgoc;2.0,v20=CCvqbmC0DMxCtbBghBaef1budg1OQ9CA7
  CATwQNrEIFybDSYobDSYobDSYobDSYobDSYobDSYobDSYobDSYobDSYobDSYobDSYobDSYobDSYoHLXh;2.1,v21=BGE4ILW7;
  3.0,v30=TidBehcrEneE9keDjiB9L63111D0B2G6B2BqbcdDobP6HscDub5B5BqebnbBddBaCbBwCFhbbrdxbi1cg3ef1bhscB
  L3E3xc7bcbo2BwBhbebbbgddgzQggbCk1bdcg1bdcBm1bdcBe1bdcg1bdcgbgbwbBe1bdcgbBmbsgBbBjDgmYfjBcdDcFnDodj
  wobjgDjiBpHK5yfDrcBybDhbH2DziBA9M1bBdFibRphD3DibPiJvCCezbDkmIfBalCic3NpxWmJTdBFEgBSudrcpblbc1DHA2B
  Vvc;3.1,v31=BMybDQQcBfBXwBebdmBaGzBlcBlCZDqJlkBmdGxVaDgbCsbb2cbcdbl1bdbbbCmbdchbgbBbbdbe1dgbMzeLde
  BxPDwCLEsBETdUvECWM3BeDr;3.2,v32=CC4BE2tmEabC8FrbCfbcbcbBxpNmbBG1DNhbCHjmbglwjtmmbcbbIR9ge4heB3Ckb
  BygDeoGmlJinM4BeBzKytFvjDkhwbDmlcjIonDmBbepJwTrBZncDjbibJ4JgpDdoDdoBRDibB6B23BGJaCgDN3dpCbbE4Jbb;
  4.0,v40=CC5scEpbClqDchfcFveTwdjiCmcFtbB5BtcBdcBR6S4G71N6DgcB3G7F9EzhHlbKY7sjKcBcdlel4dBpceEdBfBDoE
  dBCpbX0ZjbBE2KqbEmhobBRanCRnbE9BrbDadGldDvbD1JToClGRH3CvbQxlbzbsbbbocnBiEsfceBsdiWeBd1FebBmDbcjBGw
  f2bBrbb32CYUiDiBK2BTKDaJf;4.1,v41=VvkKseGddJmbR0BicG7B8CgfJhBdCA7I0BW7E7BMnbLjb1BA6G3G3D9D*D1B5D9x
  bBfzCGcBpgzgjebBgBbcbBGmDjZhbbgBxeBddF3I0B5YukCF2DxbskfpKkgBGhfJcBubBuBhEcoBskCb9qwjgbgbgbgbgbgbgb
  gBhxebBJupR4BPItvCTowIzBrBFEaEbBFqjBFaCwUnBjenCIsdbbfhbcbBaeceiiiCXPvCrBRab;
  5.0,v50=WgnLncBH7BqfqdQ6TxCgOubbbBHibnbFIjCxeBsWlgBzbBCudDpbF3XblCT4KqdBGjgfdMemhdBULjdfbLaCdBKOmz
  5IRgBHuFpDundCOGirBQub;5.1,v51=BHwdcbI7S3FkpIseleBgeLqrTdbW2D5U6BdbK8K8BabibuhS96BdbmfdgSxbJ7dcH75
  2hcefBaClebHX8BBxBqdlCsCddodByMtBbGzdDmfBJ6N9J4CbdFA0vjddBA4BfdBFfeeBodeKucbcefNqBfydcsCY4GgtBPPoh
  BZoLnuBfcriBbFbecEcEgeEyCqjlBmDfB1GeCcjncjcdBFSucBHplCaBtFaBcdBwCKdz5HOV7LRqBreDv;
  5.2,v52=BYqbBCcBtcoT3H76BjbM8CFpdHldHgeCqeDefBZ2YgiVoCrGybE6CrCkbBcckgjgnVaBiBA6BAucFvcF4CI6BArbBd
  cejbs1exI7BNheBB8nbEdgBF9BOclBPLshBXkBvQaDjMajGkBbDwBcdCzbkebEyBbeCoyeIqBtcjQOkweBwNBbcFGcvbiHebMm
  BfEyCbdBccBafhEyCuUpBeTtCnLVqBPeCTNdkfBe2B1123de87C5bb2kd2L1pBhoiCQLjGDo;
  6.0,v60=BYsbY8G2SmBb2IlbB9gbBbeTmfBR3B6B9WbdCvbBIobDEnBzidBY8ZohC8BFjkCV0B9bdC9ebC8D51ecjbCacC4B4o
  bFO0B4BPocBSEnbLnbbbojI0BDufcfcfjgbgBEMtpHRiCzeBdBHEeVwBALbbYMgocncoboI0bk1bbbcbcfhbgbjgi1cbbjebbj
  CxzbbBvivbGsBgpfbCrdtmBkbevqpCk1bGzbddCjsxFrebpbc111bcbfcd1cdblekBwCrCgElCUQmIn;
  6.1,v61=FM3L6CO7bkCdBaBX7BMrbBW75BvcEBbcmfJwhBrdKR21BYqbF15CebHujEHV2CNnhD5JibC2CzbBCowBDZzbFUuCdg
  bCRoyhjgCabnCiCuhjBTuCdijBHKoCqlBuqqBVWidbBabb12bjbd116411bcbb12E*1bb1cdbgbdbd1bjbqfcbebqCabYibBLs
  dS8B631113gb4bb4;6.2,v62=BGF8;6.3,v63=GA4JYvd;7.0,v70=DL5QihDpbL8CO7lfH6M07CL9F1H6M7IujDKrhVcbPloV
  xbJdoBBhcBFqgCZ3BQickzcBfcBhdlbhXugBTOvfJmllccbG9SuBeEvdGuBvebBFIvgBHdbB9MhBbD5BwBqOzBniBzB1FoLyjv
  khJoCkiiRwBfBgBmelFhrhdmgET1IaBmI6B2gtlrbBqEkCgfjhcbhcbcvbgbbbecicbcc9fgcgdeKhCtijGkCbcrCcCqljWkDe
  B2RgCeDFiBpHul5BALfBebjebDsBdcfkCrkjbgbufsBEMaEcfmdihjchQKyHocpHU4BgvvbUml9H0wlD7fdflrgH11S2ebClbe
  gBdrbBobDhCsbnBvCsjqmddFkDgBrleCdijgBniBd;8.0,v80=DHrbE6CB3BJ2BA0GM5cfMO4HvbDYedBRWviGR6Y0BifMmbXm
  dmDbBFFqbEBgsbbfeHgbcpcBtYqBynByhfBVddoeGeg1bdbobkI6H9YjtLezdoepME1IwHnLQqWkCAWlkCHzZbpeboJHdcDabD
  beBkhZ5CxeJjbN9WdiDzeF9CUClINp;9.0,v90=DHuhwoDO5U6ecbgxcFRziBL0CHbdDXcbEPO1BB8BHQdbBEvBjeBjNB4RhDl
  11TumCCxibBsbnkBcdBfcvbnDDW9BfJBotBDaBGFlgbqcgbbbeDIzCwfjebDDbrO2DF0E1LobBhcVafbh8clbleoBmm;
  10.0,v100=DEmkPlbJsfBZ2CgbPM6JudCS9DF1HS2YceCW0BPXnuBLPicIQqCtiBzcwbeXhgbbbBr3bbbiijDDG7YHkKyDdPfY
  AefBRpbBibTzlB9ihbbC5smBmfCewDCPdLBk;11.0,v110=FH6D9K2UfcV1BD8L9BN7M7LT9BOhBqccFRmcwyeoWpeCV6BPYhe
  HQ3ibMmbBKVcbB8BAtBnijRmBniBpBL1EocBY0BD0CR9IvChCI9BBefbbbBkbbbfhjLyyBEApDmJPieBCJutEwgJLwCpEK6FS1
  IldOicBcecd3bdyknjhbBkyDsn;12.0,v120=MH1CA622bf47hb2B3OA7OP0F3CH1BTZmfceBJrbBMBgwEI8CI0BCphcBtckGd
  bBZmBxB3HQuiWJkf4BviDmbJCwfPRccrdSAqBsdncjebOeCf5GF1BKnCiED0FI4D6IvlLdcE7E99BpfdbkfdhccBwDfBcdecfc
  nf;12.1,v121=BYF5;13.0,v130=DIcjCN3BR0M4FAjbQP0BAucBHoeKPijBFDgmCYsdBqbF3BFvdDGW4EWxBpbccbJuBbBL9F
  ebCN0fbBTmg2chbbbBdbbcljjGG2DAZ1lbKFxSoBqiBLWucDpcG1BYubBjbQtbJ0K1ebBqbgcC9Q8odpshgjcngBpFqbCcBljC
  MSjgBHTqHHy;14.0,v140=GA5WwBebbghC1skDJ3D2M7KA779X9BAnnM5BwbCL5CS9LG6E7TfkBRAtcCYibob1beycDEN3OrpM
  7BubCVgkbobgbbbkbobgbbRjfbBpbiCXxzIwfH6FW6FegBHppHWyDuWDxDabjBAEwdbgbbLcdLIbBtcwjElVdbEYvBeBHxBeBZ
  dgbdbbboFQkcBB2BN2I2GsbBsdkdicrcghigCNCpbGEvd;15.0,v150=MT5BV4DTAkcBFzcDIcjBNaqbBodBbUN3jBcESY4D4M
  RatERhfKbCjD3BPwBpRP8FvceeI9ZrcpbBkclc1obkbB2obHDJ2BIWsGFf;15.1,v151=SEmdBX5KEIqXx;
  16.0,v160=IL9HCgbE7KfbCWycFFebBSQvcmcBJOlBzCTwBldBcibLucF5BSlj12bBlbj12bdbjbbibBCvtBVwBhojDI4HYzFX
  qKZtCfEOkCfBFA9XWiJpgQtIToBq4HCcjebBT55E67C129IrBk"

end PrimePlus.Unicode
